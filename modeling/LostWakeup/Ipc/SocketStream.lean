/-
# LostWakeup.Ipc.SocketStream — `socket_write` and `socket_read`: the bytes that go through a socket.

Both calls look their user buffer up once, with `getphyaddr`, and hand the same address to `sbuf_insert` or `sbuf_remove`
for every byte.  `sbuf_empty` and `sbuf_full` are asked before, without holding what they found.

The memory behind the buffer of a call belongs to the call until it returns.
-/
import LostWakeup.Lib.Sbuf
import LostWakeup.Mm.Vm

namespace LostWakeup.Ipc.SocketStream

open Library
open Function (update update_eq_self update_of_ne update_self)
open Mm.Vma (PGSIZE PGROUNDDOWN)
open Mm.Vm (PageTable walkaddr)
open Lib

/-! ## User buffers -/

def getphyaddr (pt : PageTable) (va : Nat) : Nat :=
  let aligned_va := PGROUNDDOWN va
  let aligned_pa := (walkaddr pt va).elim 0 fun frame => frame * PGSIZE
  if aligned_pa = 0 then 0 else aligned_pa + (va - aligned_va)

/-- The user buffer of a call, with the memory by physical address. -/
structure UserBuffer where
  pt : PageTable
  addr : Nat
  mem : Nat → UInt8

namespace UserBuffer

/-- The address that the call gets for its buffer. -/
def buf (b : UserBuffer) : Nat := getphyaddr b.pt b.addr

/-- The byte that the user has at place `i` of the buffer; `none` where nothing is mapped. -/
def byteAt (b : UserBuffer) (i : Nat) : Option UInt8 :=
  let pa := getphyaddr b.pt (b.addr + i)
  if pa = 0 then none else some (b.mem pa)

/-- `memmove` of one byte to the address of the call. -/
def store (b : UserBuffer) (item : UInt8) : UserBuffer := { b with mem := update b.mem b.buf item }

end UserBuffer

/-! ## The calls -/

/-- Where a thread is in `socket_write` or `socket_read`; `got` are the bytes that a reader took so far. -/
inductive Call
  | user (ret : Int)
  /-- At the head of the loop. -/
  | writeLoop (b : UserBuffer) (i : Nat) (len : Int)
  /-- At the call of `sbuf_insert`. -/
  | writeCall (b : UserBuffer) (i : Nat) (len : Int)
  /-- Inside it, or back from it. -/
  | writeIn (b : UserBuffer) (i : Nat) (len : Int)
  | readLoop (b : UserBuffer) (got : List UInt8) (i : Nat) (len : Int)
  | readCall (b : UserBuffer) (got : List UInt8) (i : Nat) (len : Int)
  | readIn (b : UserBuffer) (got : List UInt8) (i : Nat) (len : Int)
  /-- Killed in a `sema_wait`. -/
  | dead

/-- The socket, the calls on it, and the bytes that the writers' buffers held at the places sent. -/
structure State (T : Type) where
  sb : Sbuf.State T
  used : Bool
  call : T → Call
  sent : List (Option UInt8)

inductive Event (T : Type)
  | socket_write (t : T) (b : UserBuffer) (len : Int)
  | socket_read (t : T) (b : UserBuffer) (len : Int)
  /-- Thread `t` takes its next step. -/
  | run (t : T)
  /-- Thread `t` is killed while it sleeps in `sema_wait`. -/
  | exit (t : T)
  | free_socket

namespace State

variable {T : Type} [DecidableEq T]

def setCall (s : State T) (t : T) (c : Call) : State T := { s with call := update s.call t c }

/-- One step inside `sbuf_insert`. -/
def inInsert (s : State T) (t : T) (b : UserBuffer) (i : Nat) : Option (State T) :=
  (s.sb.run t ⟨some (b.mem b.buf), true⟩).map fun sb =>
    { s with sb := sb, sent := if s.sb.call t = .insertCopy then s.sent ++ [b.byteAt i] else s.sent }

/-- One step inside `sbuf_remove`. -/
def inRemove (s : State T) (t : T) (b : UserBuffer) (got : List UInt8) (i : Nat) (len : Int) : Option (State T) :=
  (s.sb.run t ⟨none, true⟩).map fun sb =>
    { s with sb := sb }.setCall t
      (if s.sb.call t = Sbuf.Call.removeCopy then .readIn (b.store s.sb.sp.item) (got ++ [s.sb.sp.item]) i len
      else .readIn b got i len)

/-- The next step of thread `t` from where it is in its call. -/
def run (s : State T) (t : T) : Option (State T) :=
  match s.call t with
  | .user _ => none
  | .writeLoop b i len =>
    some (s.setCall t (if i < len ∧ s.used = true ∧ s.sb.sp.sbuf_full = false then .writeCall b i len else .user i))
  | .writeCall b i len => (s.sb.next (.sbuf_insert t)).map fun sb => { s with sb := sb }.setCall t (.writeIn b i len)
  | .writeIn b i len =>
    match s.sb.call t with
    | .user ret => some (s.setCall t (if ret < 0 then .user (-1) else .writeLoop b (i + 1) len))
    | _ => s.inInsert t b i
  | .readLoop b got i len =>
    some (s.setCall t (if i < len ∧ s.used = true ∧ s.sb.sp.sbuf_empty = false then .readCall b got i len else .user i))
  | .readCall b got i len =>
    (s.sb.next (.sbuf_remove t)).map fun sb => { s with sb := sb }.setCall t (.readIn b got i len)
  | .readIn b got i len =>
    match s.sb.call t with
    | .user ret => some (s.setCall t (if ret < 0 then .user (-1) else .readLoop b got (i + 1) len))
    | _ => s.inRemove t b got i len
  | .dead => none

/-- One event; `none` where it cannot happen. -/
def next (s : State T) : Event T → Option (State T)
  | .socket_write t b len =>
    match s.call t with
    | .user _ => some (s.setCall t (.writeLoop b 0 len))
    | _ => none
  | .socket_read t b len =>
    match s.call t with
    | .user _ => some (s.setCall t (.readLoop b [] 0 len))
    | _ => none
  | .run t => s.run t
  | .exit t => (s.sb.next (.exit t)).map fun sb => { s with sb := sb }.setCall t .dead
  | .free_socket => some { s with used := false }

end State

variable {T : Type} [DecidableEq T]

def Step (s : State T) (e : Event T) (s' : State T) : Prop := s.next e = some s'

/-- A socket that is bound and has not been used yet. -/
def bound (sp : Sbuf.sbuf) : State T := ⟨Sbuf.fresh sp, true, fun _ => .user 0, []⟩

/-! ## The law -/

/-- Whether `sbuf_remove` has taken its byte out. -/
def taken : Sbuf.Call → Nat
  | .user _ | .removeSignal => 1
  | _ => 0

/-- The buffer of a reader, the bytes that it took and the number of bytes that it counts. -/
def Call.reader (c : Sbuf.Call) : Call → Option (UserBuffer × List UInt8 × Nat)
  | .readLoop b got i _ => some (b, got, i)
  | .readCall b got i _ => some (b, got, i)
  | .readIn b got i _ => some (b, got, i + taken c)
  | _ => none

/-- The buffer holds the bytes taken, at the places that the user has been told of. -/
structure Holds (b : UserBuffer) (got : List UInt8) (n : Nat) : Prop where
  counted : got.length = n
  bytes : ∀ j (h : j < got.length), b.byteAt j = some got[j]

/-- What the readers took, and then what is in the socket, is what the writers' buffers held, in order; and every
reader's buffer holds the bytes that the reader took. -/
structure Stream (s : State T) : Prop where
  sent_eq : s.sent = (s.sb.removed ++ s.sb.sp.stored).map some
  received : ∀ t b got n, (s.call t).reader (s.sb.call t) = some (b, got, n) → Holds b got n

/-- The steps that lead to a state in which the law holds. -/
def Keeps (s : State T) (e : Event T) : Prop := ∀ s', Step s e s' → Stream s'

/-- The item goes to the place of the first byte: it belongs there, or it is the first byte once more and the buffer
happens to hold it at its own place. -/
def Receives (b : UserBuffer) (got : List UInt8) (item : UInt8) : Prop :=
  b.buf ≠ 0 ∧ (got = [] ∨ got.head? = some item ∧ b.byteAt got.length = some item)

/-- A byte sent is the first of its buffer, or the same again, and is not stored over an unread one; a byte received
is the first of the call, or the same; and the buffer was not emptied since the reader looked. -/
def Ok (s : State T) : Event T → Prop
  | .run t =>
    match s.call t, s.sb.call t with
    | .writeIn b i _, .insertCopy => b.byteAt i = some (b.mem b.buf) ∧ s.sb.sp.Free (b.mem b.buf)
    | .readCall _ _ _ _, _ => ¬ (s.sb.sp.r = s.sb.sp.w ∧ s.sb.sp.w ≠ 0)
    | .readIn b got _ _, .removeCopy => Receives b got s.sb.sp.item
    | _, _ => True
  | _ => True

/-! ## The steps -/

/-- Where a thread can be inside the buffer, by its place in the call. -/
def Fits : Call → Sbuf.Call → Prop
  | .writeIn _ _ _, c => c = .user 0 ∨ c = .insertWait ∨ c = .insertCopy ∨ c = .insertSignal
  | .readIn _ _ _ _, c =>
    c = .user 0 ∨ c = .removeEnter ∨ c = .removeWait ∨ c = .removeTest ∨ c = .removeCopy ∨ c = .removeSignal
  | .dead, _ => True
  | _, c => ∃ ret, c = .user ret

/-- What the good steps keep. -/
structure Inv [Fintype T] (s : State T) : Prop where
  safe : Sbuf.Safe s.sb
  fits : ∀ t, Fits (s.call t) (s.sb.call t)
  stream : Stream s

theorem UserBuffer.byteAt_zero {b : UserBuffer} (hb : b.buf ≠ 0) (item : UInt8) : (b.store item).byteAt 0 = some item := by
  unfold UserBuffer.byteAt
  have hpa : getphyaddr (b.store item).pt ((b.store item).addr + 0) = b.buf := rfl
  simp only [hpa, if_neg hb]
  exact congrArg some (update_self _ _ _)

theorem UserBuffer.store_same {b : UserBuffer} {item : UInt8} (h : b.byteAt 0 = some item) : b.store item = b := by
  have hpa : getphyaddr b.pt (b.addr + 0) = b.buf := rfl
  unfold UserBuffer.byteAt at h
  simp only [hpa] at h
  split at h
  · cases h
  · have hmem : b.mem b.buf = item := Option.some.inj h
    rw [UserBuffer.store, ← hmem, update_eq_self]

/-- A byte that belongs where it goes comes behind the others. -/
theorem Holds.receive {b : UserBuffer} {got : List UInt8} {n : Nat} {item : UInt8} (h : Holds b got n)
    (hr : Receives b got item) : Holds (b.store item) (got ++ [item]) (n + 1) := by
  rcases hr with ⟨hbuf, hfirst⟩
  refine ⟨by rw [List.length_append, List.length_singleton, h.counted], fun j hj => ?_⟩
  rw [List.length_append, List.length_singleton] at hj
  rcases hfirst with rfl | ⟨hhead, hlast⟩
  · have hzero : j = 0 := Nat.lt_one_iff.mp hj
    subst hzero
    exact UserBuffer.byteAt_zero hbuf item
  · -- the byte at the place of the first one stays as it was
    have hpos : 0 < got.length := by
      cases got with
      | nil => cases hhead
      | cons a got => exact Nat.succ_pos _
    have hzero : b.byteAt 0 = some item := by
      rw [h.bytes 0 hpos, ← hhead, List.head?_eq_getElem?, List.getElem?_eq_getElem hpos]
    rw [UserBuffer.store_same hzero]
    rcases Nat.lt_succ_iff_lt_or_eq.mp hj with hlt | heq
    · rw [List.getElem_append_left hlt]
      exact h.bytes j hlt
    · subst heq
      rw [List.getElem_concat_length rfl]
      exact hlast

/-- A reader whose buffer is right after the byte has received it. -/
theorem Holds.received {b : UserBuffer} {got : List UInt8} {n m : Nat} {item : UInt8} (h : Holds b got n)
    (h' : Holds (b.store item) (got ++ [item]) m) : Receives b got item := by
  have hlen : (got ++ [item]).length = got.length + 1 := by rw [List.length_append, List.length_singleton]
  have hfirst := h'.bytes 0 (by omega)
  have hbuf : b.buf ≠ 0 := by
    intro hzero
    have hpa : getphyaddr (b.store item).pt ((b.store item).addr + 0) = b.buf := rfl
    unfold UserBuffer.byteAt at hfirst
    simp only [hpa, hzero, if_true] at hfirst
    cases hfirst
  refine ⟨hbuf, ?_⟩
  rcases Nat.eq_zero_or_pos got.length with hnil | hpos
  · exact .inl (List.length_eq_zero_iff.mp hnil)
  right
  rw [UserBuffer.byteAt_zero hbuf, List.getElem_append_left hpos] at hfirst
  have hitem : item = got[0] := Option.some.inj hfirst
  have hzero : b.byteAt 0 = some item := by rw [h.bytes 0 hpos, hitem]
  refine ⟨by rw [List.head?_eq_getElem?, List.getElem?_eq_getElem hpos, hitem], ?_⟩
  have hlast := h'.bytes got.length (by omega)
  rw [UserBuffer.store_same hzero, List.getElem_concat_length rfl] at hlast
  exact hlast

section Steps

variable [Fintype T] {s s' : State T} {t : T}

/-- One thread moves: the invariant stays if it holds for what the thread has moved. -/
theorem Inv.move (h : Inv s) {sb : Sbuf.State T} {used : Bool} {sent : List (Option UInt8)} (c : Call)
    (hsafe : Sbuf.Safe sb) (hothers : ∀ u, u ≠ t → sb.call u = s.sb.call u)
    (hsent : sent = (sb.removed ++ sb.sp.stored).map some) (hfits : Fits c (sb.call t))
    (hmine : ∀ b got n, c.reader (sb.call t) = some (b, got, n) → Holds b got n) :
    Inv ⟨sb, used, update s.call t c, sent⟩ := by
  refine ⟨hsafe, fun u => ?_, hsent, fun u b got n hu => ?_⟩
  · rcases eq_or_ne u t with rfl | hne
    · simp only [update_self]
      exact hfits
    · simp only [update_of_ne hne]
      rw [hothers u hne]
      exact h.fits u
  · rcases eq_or_ne u t with rfl | hne
    · simp only [update_self] at hu
      exact hmine b got n hu
    · simp only [update_of_ne hne] at hu
      rw [hothers u hne] at hu
      exact h.stream.received u b got n hu

/-- A step inside `sbuf_insert`. -/
theorem Inv.inInsert {b : UserBuffer} {i : Nat} {len : Int} (h : Inv s) (hcall : s.call t = .writeIn b i len)
    (hnot : ∀ ret, s.sb.call t ≠ .user ret)
    (hok : s.sb.call t = .insertCopy → b.byteAt i = some (b.mem b.buf) ∧ s.sb.sp.Free (b.mem b.buf))
    (hstep : s.inInsert t b i = some s') : Inv s' := by
  obtain ⟨sb, hsb, rfl⟩ := Option.map_eq_some_iff.mp hstep
  have hsafe : Sbuf.Safe sb := h.safe.step (e := .run t ⟨some (b.mem b.buf), true⟩) hsb
  have hfits := h.fits t
  rw [hcall] at hfits
  have hsent := h.stream.sent_eq
  -- where the thread is in `socket_write` stays as it is
  have hmove : ∀ (c : Sbuf.Call) (sent : List (Option UInt8)), sb.call = update s.sb.call t c →
      Fits (.writeIn b i len) c → sent = (sb.removed ++ sb.sp.stored).map some →
      Inv ⟨sb, s.used, s.call, sent⟩ := by
    intro c sent hsbcall hfits' hsent'
    have hmoved : Inv ⟨sb, s.used, update s.call t (.writeIn b i len), sent⟩ :=
      h.move (.writeIn b i len) hsafe (fun u hu => by rw [hsbcall, update_of_ne hu]) hsent'
        (by rw [hsbcall, update_self]; exact hfits') nofun
    rw [← hcall, update_eq_self] at hmoved
    exact hmoved
  unfold Sbuf.State.run at hsb
  rcases hfits with hc | hc | hc | hc
  · exact absurd hc (hnot 0)
  · simp only [hc] at hsb ⊢
    split at hsb
    · cases hsb
    · cases hsb
      exact hmove .insertCopy s.sent rfl (.inr (.inr (.inl rfl))) hsent
  · simp only [hc] at hsb ⊢
    cases hsb
    rcases hok hc with ⟨hbyte, hfree⟩
    have hsmall := h.safe.count_small (t := t) (by rw [hc]; rfl)
    refine hmove .insertSignal (s.sent ++ [b.byteAt i]) rfl (.inr (.inr (.inr rfl))) ?_
    show s.sent ++ [b.byteAt i] = (s.sb.removed ++ (s.sb.sp.put (b.mem b.buf)).stored).map some
    rw [(Sbuf.sbuf.stored_put_iff _ hsmall).mpr hfree, hsent, hbyte]
    simp only [List.map_append, List.map_cons, List.map_nil, List.append_assoc]
  · simp only [hc] at hsb ⊢
    cases hsb
    exact hmove (.user 0) s.sent rfl (.inl rfl) hsent

/-- A step inside `sbuf_remove`. -/
theorem Inv.inRemove {b : UserBuffer} {got : List UInt8} {i : Nat} {len : Int} (h : Inv s)
    (hcall : s.call t = .readIn b got i len) (hnot : ∀ ret, s.sb.call t ≠ .user ret)
    (hok : s.sb.call t = .removeCopy → Receives b got s.sb.sp.item) (hstep : s.inRemove t b got i len = some s') :
    Inv s' := by
  obtain ⟨sb, hsb, rfl⟩ := Option.map_eq_some_iff.mp hstep
  have hsafe : Sbuf.Safe sb := h.safe.step (e := .run t ⟨none, true⟩) hsb
  have hfits := h.fits t
  rw [hcall] at hfits
  have hsent := h.stream.sent_eq
  have hheld : Holds b got (i + taken (s.sb.call t)) := h.stream.received t b got _ (by rw [hcall]; rfl)
  -- a step that moves no byte
  have hquiet : ∀ c : Sbuf.Call, sb.call = update s.sb.call t c → sb.removed = s.sb.removed →
      sb.sp.stored = s.sb.sp.stored → taken c = taken (s.sb.call t) → Fits (.readIn b got i len) c →
      Inv ({ s with sb := sb }.setCall t (.readIn b got i len)) := by
    intro c hsbcall hremoved hstored htaken hfits'
    refine h.move _ hsafe (fun u hu => by rw [hsbcall, update_of_ne hu]) ?_ ?_ ?_
    · rw [hremoved, hstored]
      exact hsent
    · rw [hsbcall, update_self]
      exact hfits'
    · intro b' got' n hb
      have hb : some (b, got, i + taken (sb.call t)) = some (b', got', n) := hb
      rw [hsbcall, update_self, htaken] at hb
      cases hb
      exact hheld
  unfold Sbuf.State.run at hsb
  rcases hfits with hc | hc | hc | hc | hc | hc
  · exact absurd hc (hnot 0)
  · simp only [hc] at hsb hquiet ⊢
    cases hsb
    refine hquiet _ rfl rfl rfl ?_ ?_
    · split
      · rfl
      · rfl
    · split
      · exact .inr (.inr (.inl rfl))
      · exact .inr (.inr (.inr (.inl rfl)))
  · simp only [hc] at hsb hquiet ⊢
    split at hsb
    · cases hsb
    · cases hsb
      exact hquiet .removeTest rfl rfl rfl rfl (.inr (.inr (.inr (.inl rfl))))
  · have hne := h.safe.counters_ne (t := t) (by rw [hc]; rfl)
    simp only [hc, if_neg hne] at hsb hquiet ⊢
    cases hsb
    exact hquiet .removeCopy rfl rfl rfl rfl (.inr (.inr (.inr (.inr (.inl rfl)))))
  · have hpos := h.safe.count_pos (t := t) (by rw [hc]; rfl)
    have hreceives := hok hc
    simp only [hc, if_true] at hsb hheld ⊢
    cases hsb
    refine h.move _ hsafe (fun u hu => update_of_ne hu _ _) ?_ ?_ ?_
    · show s.sent = ((s.sb.removed ++ [s.sb.sp.item]) ++ s.sb.sp.drop.stored).map some
      rw [List.append_assoc, List.singleton_append, ← Sbuf.sbuf.stored_drop hpos]
      exact hsent
    · show Fits (.readIn _ _ i len) (update s.sb.call t _ t)
      rw [update_self]
      exact .inr (.inr (.inr (.inr (.inr rfl))))
    · intro b' got' n hb
      have hb : some (b.store s.sb.sp.item, got ++ [s.sb.sp.item], i + taken (update s.sb.call t _ t)) =
        some (b', got', n) := hb
      rw [update_self] at hb
      cases hb
      exact hheld.receive hreceives
  · simp only [hc] at hsb hquiet ⊢
    cases hsb
    exact hquiet (.user 0) rfl rfl rfl rfl (.inl rfl)

/-- The next step of a thread keeps the invariant, when it is a good one. -/
theorem Inv.run (h : Inv s) (hok : Ok s (.run t)) (hrun : s.run t = some s') : Inv s' := by
  have hfits := h.fits t
  have hsent := h.stream.sent_eq
  have hsame : ∀ u, u ≠ t → s.sb.call u = s.sb.call u := fun _ _ => rfl
  unfold State.run at hrun
  unfold Ok at hok
  cases hcall : s.call t with
  | user ret =>
    rw [hcall] at hrun
    cases hrun
  | dead =>
    rw [hcall] at hrun
    cases hrun
  | writeLoop b i len =>
    simp only [hcall] at hrun hfits
    cases hrun
    refine h.move _ h.safe hsame hsent ?_ ?_
    · split
      · exact hfits
      · exact hfits
    · split
      · exact nofun
      · exact nofun
  | readLoop b got i len =>
    have hheld := h.stream.received t b got i (by rw [hcall]; rfl)
    simp only [hcall] at hrun hfits
    cases hrun
    refine h.move _ h.safe hsame hsent ?_ ?_
    · split
      · exact hfits
      · exact hfits
    split
    · intro b' got' n hb
      cases hb
      exact hheld
    · exact nofun
  | writeCall b i len =>
    simp only [hcall] at hrun hfits
    obtain ⟨sb, hsb, rfl⟩ := Option.map_eq_some_iff.mp hrun
    have hsafe : Sbuf.Safe sb := h.safe.step (e := .sbuf_insert t) hsb
    rcases hfits with ⟨ret, hc⟩
    simp only [Sbuf.State.next, hc] at hsb
    cases hsb
    refine h.move _ hsafe (fun u hu => update_of_ne hu _ _) hsent ?_ nofun
    show Fits (.writeIn b i len) (update s.sb.call t _ t)
    rw [update_self]
    split
    · exact .inr (.inl rfl)
    · exact .inr (.inr (.inl rfl))
  | readCall b got i len =>
    have hheld := h.stream.received t b got i (by rw [hcall]; rfl)
    simp only [hcall] at hrun hfits hok
    obtain ⟨sb, hsb, rfl⟩ := Option.map_eq_some_iff.mp hrun
    have hsafe : Sbuf.Safe sb := h.safe.step (e := .sbuf_remove t) hsb
    rcases hfits with ⟨ret, hc⟩
    simp only [Sbuf.State.next, hc, if_neg hok] at hsb
    cases hsb
    refine h.move _ hsafe (fun u hu => update_of_ne hu _ _) hsent ?_ ?_
    · show Fits (.readIn b got i len) (update s.sb.call t _ t)
      rw [update_self]
      exact .inr (.inl rfl)
    intro b' got' n hb
    have hb : some (b, got, i + taken (update s.sb.call t _ t)) = some (b', got', n) := hb
    rw [update_self] at hb
    cases hb
    exact hheld
  | writeIn b i len =>
    simp only [hcall] at hrun hok hfits
    by_cases hret : ∃ ret, s.sb.call t = .user ret
    · rcases hret with ⟨ret, hc⟩
      simp only [hc] at hrun
      cases hrun
      refine h.move _ h.safe hsame hsent ?_ ?_
      · split
        · exact ⟨ret, hc⟩
        · exact ⟨ret, hc⟩
      · split
        · exact nofun
        · exact nofun
    · have hnot : ∀ ret, s.sb.call t ≠ .user ret := fun ret hc => hret ⟨ret, hc⟩
      have hstep : s.inInsert t b i = some s' := by
        split at hrun
        next ret hc => exact absurd hc (hnot ret)
        next => exact hrun
      refine h.inInsert hcall hnot (fun hc => ?_) hstep
      simp only [hc] at hok
      exact hok
  | readIn b got i len =>
    have hheld := h.stream.received t b got _ (by rw [hcall]; rfl)
    simp only [hcall] at hrun hok hfits
    by_cases hret : ∃ ret, s.sb.call t = .user ret
    · rcases hret with ⟨ret, hc⟩
      simp only [hc] at hrun hheld
      cases hrun
      refine h.move _ h.safe hsame hsent ?_ ?_
      · split
        · exact ⟨ret, hc⟩
        · exact ⟨ret, hc⟩
      split
      · exact nofun
      · intro b' got' n hb
        cases hb
        exact hheld
    · have hnot : ∀ ret, s.sb.call t ≠ .user ret := fun ret hc => hret ⟨ret, hc⟩
      have hstep : s.inRemove t b got i len = some s' := by
        split at hrun
        next ret hc => exact absurd hc (hnot ret)
        next => exact hrun
      refine h.inRemove hcall hnot (fun hc => ?_) hstep
      simp only [hc] at hok
      exact hok

theorem Inv.step {e : Event T} (h : Inv s) (hok : Ok s e) (hstep : Step s e s') : Inv s' := by
  have hsent := h.stream.sent_eq
  unfold Step State.next at hstep
  cases e with
  | socket_write t b len =>
    have hfits := h.fits t
    cases hcall : s.call t <;> simp only [hcall] at hstep hfits <;> cases hstep
    exact h.move _ h.safe (fun _ _ => rfl) hsent hfits nofun
  | socket_read t b len =>
    have hfits := h.fits t
    cases hcall : s.call t <;> simp only [hcall] at hstep hfits <;> cases hstep
    refine h.move _ h.safe (fun _ _ => rfl) hsent hfits ?_
    intro b' got' n hb
    cases hb
    exact ⟨rfl, nofun⟩
  | run t => exact h.run hok hstep
  | exit t =>
    obtain ⟨sb, hsb, rfl⟩ := Option.map_eq_some_iff.mp hstep
    have hsafe : Sbuf.Safe sb := h.safe.step (e := .exit t) hsb
    simp only [Sbuf.State.next] at hsb
    split at hsb
    · cases hsb
      exact h.move _ hsafe (fun u hu => update_of_ne hu _ _) hsent trivial nofun
    · cases hsb
      exact h.move _ hsafe (fun u hu => update_of_ne hu _ _) hsent trivial nofun
    · cases hsb
  | free_socket =>
    cases hstep
    exact ⟨h.safe, h.fits, h.stream.sent_eq, h.stream.received⟩

omit [DecidableEq T] in
/-- A byte that keeps the stream in order when it is sent belongs to the stream, and finds a free cell. -/
theorem sent_of_stream {b : UserBuffer} {i : Nat} {item : UInt8} (h : Inv s) (hc : s.sb.call t = .insertCopy)
    (hsent' : s.sent ++ [b.byteAt i] = (s.sb.removed ++ (s.sb.sp.put item).stored).map some) :
    b.byteAt i = some item ∧ s.sb.sp.Free item := by
  have hsmall := h.safe.count_small (t := t) (by rw [hc]; rfl)
  obtain ⟨olds, holds⟩ : ∃ olds, (s.sb.sp.put item).stored = olds ++ [item] := ⟨_, Sbuf.sbuf.stored_put item hsmall⟩
  rw [h.stream.sent_eq, holds, ← List.append_assoc, @List.map_append _ _ _ (s.sb.removed ++ olds)] at hsent'
  rcases List.append_inj' hsent' rfl with ⟨hold, hlast⟩
  have hbyte : b.byteAt i = some item := by simpa using hlast
  refine ⟨hbyte, (Sbuf.sbuf.stored_put_iff item hsmall).mp ?_⟩
  have hinj : s.sb.removed ++ s.sb.sp.stored = s.sb.removed ++ olds :=
    List.map_injective_iff.mpr (Option.some_injective UInt8) hold
  rw [holds, List.append_cancel_left hinj]

/-- A step that leads to a state in order is a good one. -/
theorem ok_of_stream {e : Event T} (h : Inv s) (hstep : Step s e s') (hstream : Stream s') : Ok s e := by
  cases e with
  | run t =>
    have hrun : s.run t = some s' := hstep
    have hfits := h.fits t
    unfold State.run at hrun
    unfold Ok
    cases hcall : s.call t with
    | readCall b got i len =>
      have hheld := h.stream.received t b got i (by rw [hcall]; rfl)
      simp only [hcall] at hrun hfits ⊢
      obtain ⟨sb, hsb, rfl⟩ := Option.map_eq_some_iff.mp hrun
      rcases hfits with ⟨ret, hc⟩
      intro hempty
      simp only [Sbuf.State.next, hc, if_pos hempty] at hsb
      cases hsb
      -- the reader counts a byte that it did not get
      have hafter := hstream.received t b got (i + 1) (by simp [State.setCall, Sbuf.State.setCall, Call.reader, taken])
      have hcounted := hheld.counted.symm.trans hafter.counted
      omega
    | writeIn b i len =>
      simp only [hcall] at hrun ⊢
      cases hc : s.sb.call t with
      | insertCopy =>
        simp only [hc, State.inInsert, Sbuf.State.run, if_true] at hrun ⊢
        cases hrun
        exact sent_of_stream h hc hstream.sent_eq
      | user ret => trivial
      | insertWait => trivial
      | insertSignal => trivial
      | removeEnter => trivial
      | removeWait => trivial
      | removeTest => trivial
      | removeCopy => trivial
      | removeSignal => trivial
      | dead => trivial
    | readIn b got i len =>
      have hheld := h.stream.received t b got _ (by rw [hcall]; rfl)
      simp only [hcall] at hrun ⊢
      cases hc : s.sb.call t with
      | removeCopy =>
        simp only [hc, State.inRemove, Sbuf.State.run, if_true] at hrun ⊢
        cases hrun
        refine hheld.received (hstream.received t _ _ (i + 1) ?_)
        simp [State.setCall, Sbuf.State.removeItem, Sbuf.State.setCall, Call.reader, taken]
      | user ret => trivial
      | insertWait => trivial
      | insertCopy => trivial
      | insertSignal => trivial
      | removeEnter => trivial
      | removeWait => trivial
      | removeTest => trivial
      | removeSignal => trivial
      | dead => trivial
    | user ret => simp only [hcall]
    | writeLoop b i len => simp only [hcall]
    | writeCall b i len => simp only [hcall]
    | readLoop b got i len => simp only [hcall]
    | dead => simp only [hcall]
  | socket_write t b len => trivial
  | socket_read t b len => trivial
  | exit t => trivial
  | free_socket => trivial

omit [DecidableEq T] in
theorem inv_bound {buf : Nat → UInt8} {n : Nat} {sp : Sbuf.sbuf} (hinit : Sbuf.sbuf_init buf n = some sp) :
    Inv (bound (T := T) sp) := by
  have hring := Sbuf.inv_fresh (T := T) hinit
  refine ⟨hring.safe, fun t => ⟨0, rfl⟩, ?_, nofun⟩
  have hfifo := hring.fifo
  show [] = ((Sbuf.fresh (T := T) sp).removed ++ (Sbuf.fresh (T := T) sp).sp.stored).map some
  rw [← hfifo]
  rfl

/-- **The bytes taken from a socket are the bytes sent to it, in order, and reach the places of the readers' buffers, in
exactly the runs in which every byte of a call is its first one or the same again.** -/
theorem socket_stream {buf : Nat → UInt8} {n : Nat} {sp : Sbuf.sbuf} (hinit : Sbuf.sbuf_init buf n = some sp)
    (es : List (Event T)) (s : State T) :
    (Run (Guarded Step Keeps) (bound sp) es s ↔ Run (Guarded Step Ok) (bound sp) es s) ∧
      (Run (Guarded Step Ok) (bound sp) es s → Stream s ∧ s.sb.removed.map some <+: s.sent) := by
  have hkeep : ∀ (s : State T) e s', Inv s → Ok s e → Step s e s' → Inv s' := fun _ _ _ h hok hstep => h.step hok hstep
  refine ⟨Run.guarded_iff hkeep (fun s₁ e s₂ h hstep => ⟨fun hkeeps => ?_, fun hok s₂' hstep' => ?_⟩) (inv_bound hinit),
    fun hrun => ?_⟩
  · exact ok_of_stream h hstep (hkeeps s₂ hstep)
  · exact (h.step hok hstep').stream
  · have hinv := hrun.invariant (fun _ _ _ h hstep => h.step hstep.1 hstep.2) (inv_bound hinit)
    refine ⟨hinv.stream, ?_⟩
    rw [hinv.stream.sent_eq, List.map_append]
    exact List.prefix_append _ _

end Steps

/-! ## Two bytes -/

/-- A page table with one page of the user, at `0x10000`. -/
def onePage : PageTable :=
  Mm.Vm.uvmcreate.setEntry (Mm.Vm.region 0x10000)
    (.table 9 (update (fun _ => Mm.Vm.Pte.zero) (Mm.Vm.slot 0x10000)
      ⟨5, Mm.Vm.PTE_V ||| Mm.Vm.PTE_U ||| Mm.Vm.PTE_R ||| Mm.Vm.PTE_W⟩))

/-- The bytes 104 and 105 of a writer. -/
def greeting : UserBuffer := ⟨onePage, 0x10000, fun pa => if pa = 5 * 4096 then 104 else 105⟩

/-- An empty page of a reader. -/
def blank : UserBuffer := ⟨onePage, 0x10000, fun _ => 0⟩

/-- Thread `true` sends two bytes, one a call, and thread `false` receives them. -/
def sent_apart : List (Event Bool) :=
  let send (addr : Nat) : List (Event Bool) := .socket_write true { greeting with addr := addr } 1 :: List.replicate 6 (.run true)
  let receive : List (Event Bool) := .socket_read false blank 1 :: List.replicate 8 (.run false)
  send 0x10000 ++ send 0x10001 ++ receive ++ receive

/-- The socket that `sys_socket` makes. -/
def socketBuffer : Sbuf.sbuf := ⟨fun _ => 0, Sbuf.SOCKET_SBUF_SIZE, 0, 0, ⟨int32 Sbuf.SOCKET_SBUF_SIZE, 0⟩, ⟨0, 0⟩⟩

theorem socket_stream_sent_apart : ∃ s, Run (Guarded Step Keeps) (bound socketBuffer) sent_apart s ∧
    s.sb.removed = [104, 105] ∧ Stream s := by
  have hinit : Sbuf.sbuf_init (fun _ => 0) Sbuf.SOCKET_SBUF_SIZE = some socketBuffer := rfl
  have hreceives : ∀ item, Receives blank [] item := fun _ => ⟨by decide, .inl rfl⟩
  have hrun : ∃ s, Run (Guarded Step Ok) (bound socketBuffer) sent_apart s ∧ s.sb.removed = [104, 105] := by
    refine ⟨_, .cons ⟨trivial, rfl⟩ (.cons ⟨trivial, rfl⟩ (.cons ⟨trivial, rfl⟩ (.cons ⟨⟨by decide, Sbuf.sbuf.free_of_le ?_ ?_ 104⟩, rfl⟩ (
      .cons ⟨trivial, rfl⟩ (.cons ⟨trivial, rfl⟩ (.cons ⟨trivial, rfl⟩ (.cons ⟨trivial, rfl⟩ (.cons ⟨trivial, rfl⟩ (
      .cons ⟨trivial, rfl⟩ (.cons ⟨⟨by decide, Sbuf.sbuf.free_of_le ?_ ?_ 105⟩, rfl⟩ (.cons ⟨trivial, rfl⟩ (.cons ⟨trivial, rfl⟩ (
      .cons ⟨trivial, rfl⟩ (.cons ⟨trivial, rfl⟩ (.cons ⟨trivial, rfl⟩ (
      .cons ⟨show ¬ ((0 : BitVec 32) = 2 ∧ (2 : BitVec 32) ≠ 0) by decide, rfl⟩ (.cons ⟨trivial, rfl⟩ (
      .cons ⟨trivial, rfl⟩ (.cons ⟨hreceives _, rfl⟩ (.cons ⟨trivial, rfl⟩ (.cons ⟨trivial, rfl⟩ (
      .cons ⟨trivial, rfl⟩ (.cons ⟨trivial, rfl⟩ (.cons ⟨trivial, rfl⟩ (
      .cons ⟨show ¬ ((1 : BitVec 32) = 2 ∧ (2 : BitVec 32) ≠ 0) by decide, rfl⟩ (.cons ⟨trivial, rfl⟩ (
      .cons ⟨trivial, rfl⟩ (.cons ⟨hreceives _, rfl⟩ (.cons ⟨trivial, rfl⟩ (.cons ⟨trivial, rfl⟩ (
      .cons ⟨trivial, rfl⟩ (.nil _)))))))))))))))))))))))))))))))), rfl⟩ <;> decide
  rcases hrun with ⟨s, hrun, hremoved⟩
  have hstream := socket_stream hinit sent_apart s
  exact ⟨s, hstream.1.mpr hrun, hremoved, (hstream.2 hrun).1⟩

/-- Thread `true` sends two bytes. -/
def two_bytes : List (Event Bool) := .socket_write true greeting 2 :: List.replicate 8 (.run true)

/-- Both are the first byte of the buffer. -/
theorem first_byte_twice : ∃ s, Run Step (bound socketBuffer) two_bytes s ∧
    s.sent = [some 104, some 105] ∧ s.sb.sp.stored = [104, 104] ∧ ¬ Stream s := by
  obtain ⟨s, hrun, hsent, hremoved, hstored⟩ : ∃ s, Run Step (bound socketBuffer) two_bytes s ∧
      s.sent = [some 104, some 105] ∧ s.sb.removed = [] ∧ s.sb.sp.stored = [104, 104] :=
    ⟨_, run_of_exec State.next (bound socketBuffer) two_bytes rfl, by decide, rfl, by decide⟩
  refine ⟨s, hrun, hsent, hstored, fun hstream => ?_⟩
  have heq := hstream.sent_eq
  rw [hsent, hremoved, hstored] at heq
  exact absurd heq (by decide)

end LostWakeup.Ipc.SocketStream
