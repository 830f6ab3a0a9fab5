/-
# LostWakeup.Ipc.Ports — `ipc/socket.c`: who owns a port.

A port is kept twice: in the `src_port` of the socket, and in the table `map` that `port2sock` looks through.
`sys_bind`, `sys_connect` and `sys_sendto` set the one and then call `add_mapping`, whose answer nobody reads,
and `free_socket` takes the first entry of the table with the port of the socket, whoever it belongs to.
-/
import LostWakeup.Library.CInt
import LostWakeup.Library.Run
import Mathlib.Data.Fin.Basic
import Mathlib.Data.List.FinRange
import Mathlib.Logic.Function.Basic

namespace LostWakeup.Ipc.Ports

open Library
open Function (update update_of_ne update_self)

/-! ## The tables -/

abbrev SIZE : Nat := 20

/-- The length of `socket_table`. -/
abbrev NSOCKET : Nat := 100

/-- `struct socket`, as far as ports go. -/
structure socket where
  used : Bool
  src_port : Int
  dst_port : Int

structure port_to_sock where
  port : Int
  sock : Option (Fin NSOCKET)

structure Tables where
  socket_table : Fin NSOCKET → socket
  map : Fin SIZE → port_to_sock
  PORT : Int

/-- The first entry of the table with the port. -/
def entryOf (map : Fin SIZE → port_to_sock) (port : Int) : Option (Fin SIZE) :=
  (List.finRange SIZE).find? fun i => decide ((map i).port = port)

namespace Tables

def port2sock (s : Tables) (port : Int) : Option (Fin NSOCKET) :=
  if port = 0 then none else (entryOf s.map port).bind fun i => (s.map i).sock

/-- `add_mapping`, with its return value. -/
def add_mapping (s : Tables) (port : Int) (sock : Fin NSOCKET) : Tables × Int :=
  match entryOf s.map 0 with
  | some i => ({ s with map := update s.map i ⟨port, some sock⟩ }, 0)
  | none => (s, -1)

/-- `free_mapping`, with its return value. -/
def free_mapping (s : Tables) (port : Int) : Tables × Int :=
  match entryOf s.map port with
  | some i => ({ s with map := update s.map i { s.map i with port := 0 } }, 0)
  | none => (s, -1)

def setSocket (s : Tables) (i : Fin NSOCKET) (v : socket) : Tables :=
  { s with socket_table := update s.socket_table i v }

/-- The first slot of the table that is not used. -/
def unused (s : Tables) : Option (Fin NSOCKET) :=
  (List.finRange NSOCKET).find? fun i => (s.socket_table i).used = false

def alloc_socket (s : Tables) : Option (Tables × Fin NSOCKET) :=
  s.unused.map fun i => (s.setSocket i ⟨true, 0, 0⟩, i)

/-- `free_socket`. -/
def free_socket (s : Tables) (sock : Fin NSOCKET) : Tables :=
  ((s.setSocket sock { s.socket_table sock with used := false }).free_mapping (s.socket_table sock).src_port).1

/-- `atomic_inc_return(&PORT)`, which returns the value from before. -/
def assign_port (s : Tables) : Tables × Int := ({ s with PORT := int32 (s.PORT + 1) }, s.PORT)

/-- `sock->src_port = port; add_mapping(sock->src_port, sock);` -/
def setPort (s : Tables) (sock : Fin NSOCKET) (port : Int) : Tables :=
  ((s.setSocket sock { s.socket_table sock with src_port := port }).add_mapping port sock).1

/-- The port that a socket gets when it has none. -/
def autobind (s : Tables) (sock : Fin NSOCKET) : Tables :=
  if (s.socket_table sock).src_port = 0 then s.assign_port.1.setPort sock s.assign_port.2 else s

def AF_INET : Nat := 2
def INADDR_ANY : Nat := 0

/-- `sys_bind` of the address `sa`, with its return value. -/
def sys_bind (s : Tables) (sock : Fin NSOCKET) (sin_family s_addr : Nat) (sin_port : UInt16) : Tables × Int :=
  if sin_family ≠ AF_INET then (s, -1)
  else if s_addr ≠ INADDR_ANY ∧ s_addr ≠ 0x100007f then (s, -1)
  else if sin_port = 0 then (s.assign_port.1.setPort sock s.assign_port.2, 0)
  else (s.setPort sock sin_port.toNat, 0)

/-- `sys_connect` and the head of `sys_sendto`, but for the queue of the peer. -/
def setPeer (s : Tables) (sock : Fin NSOCKET) (sin_port : UInt16) : Tables :=
  let s := s.autobind sock
  s.setSocket sock { s.socket_table sock with dst_port := sin_port.toNat }

end Tables

inductive Event
  | sys_socket
  | sys_bind (sock : Fin NSOCKET) (sin_family s_addr : Nat) (sin_port : UInt16)
  | sys_connect (sock : Fin NSOCKET) (sin_port : UInt16)
  | sys_sendto (sock : Fin NSOCKET) (sin_port : UInt16)
  /-- The last descriptor of the socket is closed. -/
  | close (sock : Fin NSOCKET)

/-- The socket of an open descriptor. -/
def Event.sock : Event → Option (Fin NSOCKET)
  | .sys_socket => none
  | .sys_bind sock _ _ _ => some sock
  | .sys_connect sock _ => some sock
  | .sys_sendto sock _ => some sock
  | .close sock => some sock

/-- What a call does to the tables; a full socket table is a null pointer in `sys_socket`. -/
def Tables.apply (s : Tables) : Event → Option Tables
  | .sys_socket => s.alloc_socket.map Prod.fst
  | .sys_bind sock sin_family s_addr sin_port => some (s.sys_bind sock sin_family s_addr sin_port).1
  | .sys_connect sock sin_port => some (s.setPeer sock sin_port)
  | .sys_sendto sock sin_port => some (s.setPeer sock sin_port)
  | .close sock => some (s.free_socket sock)

/-- A call on a socket is made through an open descriptor of it. -/
def Step (s : Tables) (e : Event) (s' : Tables) : Prop :=
  (∀ sock, e.sock = some sock → (s.socket_table sock).used = true) ∧ s.apply e = some s'

/-- The tables at boot. -/
def boot : Tables := ⟨fun _ => ⟨false, 0, 0⟩, fun _ => ⟨0, none⟩, 1024⟩

/-! ## The law -/

/-- The socket is live and has the port. -/
def Tables.Owns (s : Tables) (sock : Fin NSOCKET) (port : Int) : Prop :=
  (s.socket_table sock).used = true ∧ (s.socket_table sock).src_port = port

/-- Ports have one owner at most, and `port2sock` finds it. -/
structure Law (s : Tables) : Prop where
  unique : ∀ port, port ≠ 0 → ∀ i j, s.Owns i port → s.Owns j port → i = j
  lookup : ∀ port, port ≠ 0 → ∀ i, s.port2sock port = some i ↔ s.Owns i port

/-- A `bind` that returns 0 has recorded the socket. -/
def Recorded (s : Tables) : Event → Prop
  | .sys_bind sock sin_family s_addr sin_port =>
    let r := s.sys_bind sock sin_family s_addr sin_port
    r.2 = 0 → r.1.port2sock (r.1.socket_table sock).src_port = some sock
  | _ => True

/-- The steps that lead to a state in which the law holds, and record what they bind. -/
def Keeps (s : Tables) (e : Event) : Prop := ∀ s', Step s e s' → Law s' ∧ Recorded s e

/-- The port is free for the socket and there is an entry for it, or the socket has it already. -/
def Free (s : Tables) (sock : Fin NSOCKET) (port : Int) : Prop :=
  (∀ j, j ≠ sock → ¬ s.Owns j port) ∧
    ((s.socket_table sock).src_port = port ∨
      (s.socket_table sock).src_port = 0 ∧ ∃ i, (s.map i).port = 0)

/-- A port is taken from the counter only if it is free. -/
def AutoOk (s : Tables) (sock : Fin NSOCKET) : Prop :=
  (s.socket_table sock).src_port = 0 → s.PORT = 0 ∨ Free s sock s.PORT

/-- The addresses that `bind` refuses. -/
def Refused (sin_family s_addr : Nat) : Prop :=
  sin_family ≠ Tables.AF_INET ∨ s_addr ≠ Tables.INADDR_ANY ∧ s_addr ≠ 0x100007f

/-- A `bind` that is not refused is for a free port, by a socket without another one; a socket that is closed is
recorded once. -/
def Ok (s : Tables) : Event → Prop
  | .sys_socket => True
  | .sys_bind sock sin_family s_addr sin_port =>
    Refused sin_family s_addr ∨
      if sin_port = 0 then s.PORT ≠ 0 ∧ Free s sock s.PORT else Free s sock sin_port.toNat
  | .sys_connect sock _ => AutoOk s sock
  | .sys_sendto sock _ => AutoOk s sock
  | .close sock =>
    (s.socket_table sock).src_port = 0 ∨
      ∀ i j, (s.map i).port = (s.socket_table sock).src_port → (s.map j).port = (s.socket_table sock).src_port → i = j

/-! ## The entries -/

section Entries

variable {map map' : Fin SIZE → port_to_sock} {port : Int} {i : Fin SIZE}

theorem port_of_entry (h : entryOf map port = some i) : (map i).port = port := by
  have hport := List.find?_some h
  exact of_decide_eq_true hport

theorem entryOf_eq_none : entryOf map port = none ↔ ∀ i, (map i).port ≠ port := by
  unfold entryOf
  rw [List.find?_eq_none]
  constructor
  · intro h i hi
    exact h i (List.mem_finRange i) (decide_eq_true hi)
  · intro h i _ hi
    exact h i (of_decide_eq_true hi)

theorem exists_entry (h : (map i).port = port) : ∃ j, entryOf map port = some j := by
  cases hentry : entryOf map port with
  | none => exact absurd h (entryOf_eq_none.mp hentry i)
  | some j => exact ⟨j, rfl⟩

theorem entryOf_congr (h : ∀ i, (map' i).port = port ↔ (map i).port = port) : entryOf map' port = entryOf map port := by
  unfold entryOf
  apply congrArg fun p => (List.finRange SIZE).find? p
  funext i
  exact decide_eq_decide.mpr (h i)

theorem entryOf_unique (h : (map i).port = port) (hone : ∀ j, (map j).port = port → j = i) : entryOf map port = some i := by
  rcases exists_entry h with ⟨j, hj⟩
  rw [hj, hone j (port_of_entry hj)]

theorem find_again {α β : Type} [DecidableEq α] {l : List α} {p : α → Bool} {f : α → Option β} {a : α} {b : β}
    (h : (l.find? p).bind f = some b) (p' : α → Bool) (f' : α → Option β) (hp : ∀ x, x ≠ a → p' x = p x)
    (hpa : p' a = true) (hf : ∀ x, x ≠ a → f' x = f x) (hfa : f' a = some b) : (l.find? p').bind f' = some b := by
  induction l with
  | nil => cases h
  | cons x l ih =>
    rcases eq_or_ne x a with rfl | hne
    · rw [List.find?_cons_of_pos hpa]
      exact hfa
    cases hx : p x with
    | true =>
      rw [List.find?_cons_of_pos hx] at h
      rw [List.find?_cons_of_pos ((hp x hne).trans hx)]
      exact (hf x hne).trans h
    | false =>
      rw [List.find?_cons_of_neg (by rw [hx]; exact Bool.false_ne_true)] at h
      rw [List.find?_cons_of_neg (by rw [hp x hne, hx]; exact Bool.false_ne_true)]
      exact ih h

theorem entryOf_update_ne {v : port_to_sock} (hfree : (map i).port ≠ port) (hv : v.port ≠ port) :
    entryOf (update map i v) port = entryOf map port := by
  apply entryOf_congr
  intro j
  rcases eq_or_ne j i with rfl | hne
  · rw [update_self]
    exact ⟨fun h => absurd h hv, fun h => absurd h hfree⟩
  · rw [update_of_ne hne]

end Entries

/-! ## What the calls do to the law -/

/-- The law, and an entry with a port has a socket. -/
structure Inv (s : Tables) : Prop where
  law : Law s
  filled : ∀ i, (s.map i).port ≠ 0 → (s.map i).sock ≠ none

section Calls

variable {s s' : Tables} {sock : Fin NSOCKET} {port : Int}

theorem port2sock_eq_some {i : Fin NSOCKET} (hport : port ≠ 0) :
    s.port2sock port = some i ↔ ∃ j, entryOf s.map port = some j ∧ (s.map j).sock = some i := by
  rw [Tables.port2sock, if_neg hport]
  exact Option.bind_eq_some_iff

theorem Inv.port2sock_eq_none (h : Inv s) (hport : port ≠ 0) (hnone : s.port2sock port = none) (i : Fin SIZE) :
    (s.map i).port ≠ port := by
  intro hi
  rcases exists_entry hi with ⟨j, hj⟩
  have hfilled := h.filled j (by rw [port_of_entry hj]; exact hport)
  rw [Tables.port2sock, if_neg hport, hj] at hnone
  exact hfilled hnone

theorem Inv.no_entry (h : Inv s) (hport : port ≠ 0) (hnone : ∀ i, ¬ s.Owns i port) (i : Fin SIZE) : (s.map i).port ≠ port := by
  apply h.port2sock_eq_none hport
  cases hsock : s.port2sock port with
  | none => rfl
  | some j => exact absurd ((h.law.lookup port hport j).mp hsock) (hnone j)

theorem Inv.same (h : Inv s) (howns : ∀ i port, port ≠ 0 → (s'.Owns i port ↔ s.Owns i port))
    (hfind : ∀ port, port ≠ 0 → s'.port2sock port = s.port2sock port)
    (hfilled : ∀ i, (s'.map i).port ≠ 0 → (s'.map i).sock ≠ none) : Inv s' := by
  refine ⟨⟨fun port hport i j hi hj => ?_, fun port hport i => ?_⟩, hfilled⟩
  · exact h.law.unique port hport i j ((howns i port hport).mp hi) ((howns j port hport).mp hj)
  · rw [howns i port hport, ← h.law.lookup port hport i, hfind port hport]

theorem owns_set_ne {v : socket} {i : Fin NSOCKET} (hne : i ≠ sock) (port : Int) :
    (s.setSocket sock v).Owns i port ↔ s.Owns i port := by
  simp only [Tables.Owns, Tables.setSocket, update_of_ne hne]

theorem owns_set_self {v : socket} (port : Int) : (s.setSocket sock v).Owns sock port ↔ v.used = true ∧ v.src_port = port := by
  simp only [Tables.Owns, Tables.setSocket, update_self]

theorem Inv.assign (h : Inv s) : Inv s.assign_port.1 := h.same (fun _ _ _ => Iff.rfl) (fun _ _ => rfl) h.filled

theorem owns_add (i : Fin NSOCKET) (p : Int) : (s.add_mapping port sock).1.Owns i p ↔ s.Owns i p := by
  unfold Tables.add_mapping
  split
  · exact Iff.rfl
  · exact Iff.rfl

theorem port2sock_add_ne {p : Int} (hp : p ≠ 0) (hne : p ≠ port) : (s.add_mapping port sock).1.port2sock p = s.port2sock p := by
  unfold Tables.add_mapping
  split
  next i hi =>
    have hfree := port_of_entry hi
    have hentry : entryOf (update s.map i ⟨port, some sock⟩) p = entryOf s.map p :=
      entryOf_update_ne (by rw [hfree]; exact hp.symm) hne.symm
    rw [Tables.port2sock, Tables.port2sock, if_neg hp, if_neg hp, hentry]
    cases hold : entryOf s.map p with
    | none => rfl
    | some j =>
      have hji : j ≠ i := by
        rintro rfl
        exact hp ((port_of_entry hold).symm.trans hfree)
      show (update s.map i _ j).sock = (s.map j).sock
      rw [update_of_ne hji]
  next => rfl

/-- A port that was in no entry finds the socket it is added for, if there was room. -/
theorem port2sock_add_self (hport : port ≠ 0) (hnone : ∀ i, (s.map i).port ≠ port) :
    (s.add_mapping port sock).1.port2sock port = if (∃ i, (s.map i).port = 0) then some sock else none := by
  unfold Tables.add_mapping
  cases hentry : entryOf s.map 0 with
  | none =>
    have hfull := entryOf_eq_none.mp hentry
    rw [if_neg (fun ⟨i, hi⟩ => hfull i hi), Tables.port2sock, if_neg hport, entryOf_eq_none.mpr hnone]
    rfl
  | some i =>
    rw [if_pos ⟨i, port_of_entry hentry⟩]
    have hself : (update s.map i ⟨port, some sock⟩ i).port = port := by rw [update_self]
    have hfirst : entryOf (update s.map i ⟨port, some sock⟩) port = some i := by
      refine entryOf_unique hself fun j hj => ?_
      by_contra hne
      rw [update_of_ne hne] at hj
      exact hnone j hj
    rw [Tables.port2sock, if_neg hport]
    show (entryOf (update s.map i ⟨port, some sock⟩) port).bind _ = some sock
    rw [hfirst]
    show (update s.map i _ i).sock = some sock
    rw [update_self]

theorem port2sock_add_again (hport : port ≠ 0) (hold : s.port2sock port = some sock) :
    (s.add_mapping port sock).1.port2sock port = some sock := by
  unfold Tables.add_mapping
  split
  next i hi =>
    rw [Tables.port2sock, if_neg hport] at hold ⊢
    refine find_again (a := i) hold _ _ (fun x hx => ?_) ?_ (fun x hx => ?_) ?_
    · simp only [update_of_ne hx]
    · simp only [update_self, decide_true]
    · simp only [update_of_ne hx]
    · simp only [update_self]
  next => exact hold

theorem filled_add (h : ∀ i, (s.map i).port ≠ 0 → (s.map i).sock ≠ none) (i : Fin SIZE) :
    ((s.add_mapping port sock).1.map i).port ≠ 0 → ((s.add_mapping port sock).1.map i).sock ≠ none := by
  unfold Tables.add_mapping
  split
  next j hj =>
    show (update s.map j _ i).port ≠ 0 → (update s.map j _ i).sock ≠ none
    rcases eq_or_ne i j with rfl | hne
    · rw [update_self]
      exact fun _ => nofun
    · rw [update_of_ne hne]
      exact h i
  next => exact h i

theorem owns_setPort_self (hused : (s.socket_table sock).used = true) (p : Int) :
    (s.setPort sock port).Owns sock p ↔ port = p := by
  rw [Tables.setPort, owns_add, owns_set_self]
  exact ⟨fun h => h.2, fun h => ⟨hused, h⟩⟩

theorem owns_setPort_ne {i : Fin NSOCKET} (hne : i ≠ sock) (p : Int) : (s.setPort sock port).Owns i p ↔ s.Owns i p := by
  rw [Tables.setPort, owns_add, owns_set_ne hne]

theorem port2sock_set (v : socket) (p : Int) : (s.setSocket sock v).port2sock p = s.port2sock p := rfl

theorem Inv.port2sock_setPort (h : Inv s) (hused : (s.socket_table sock).used = true) (hport : port ≠ 0)
    (hfree : Free s sock port) : (s.setPort sock port).port2sock port = some sock := by
  rcases hfree with ⟨hothers, hsame | ⟨hzero, hroom⟩⟩
  · apply port2sock_add_again hport
    exact (h.law.lookup port hport sock).mpr ⟨hused, hsame⟩
  have hnone : ∀ i, ¬ s.Owns i port := by
    intro i hi
    rcases eq_or_ne i sock with rfl | hne
    · exact hport (hi.2.symm.trans hzero)
    · exact hothers i hne hi
  exact (port2sock_add_self (s := s.setSocket sock _) hport (h.no_entry hport hnone)).trans (if_pos hroom)

/-- A socket takes a port that is free for it. -/
theorem Inv.setPort (h : Inv s) (hused : (s.socket_table sock).used = true) (hport : port ≠ 0) (hfree : Free s sock port) :
    Inv (s.setPort sock port) := by
  have hself := h.port2sock_setPort hused hport hfree
  rcases hfree with ⟨hothers, hown⟩
  refine ⟨⟨fun p hp i j hi hj => ?_, fun p hp i => ?_⟩, filled_add h.filled⟩
  · rcases eq_or_ne i sock with rfl | hi'
    · rcases eq_or_ne j i with rfl | hj'
      · rfl
      · rw [owns_setPort_self hused] at hi
        rw [owns_setPort_ne hj', ← hi] at hj
        exact absurd hj (hothers j hj')
    · rw [owns_setPort_ne hi'] at hi
      rcases eq_or_ne j sock with rfl | hj'
      · rw [owns_setPort_self hused] at hj
        rw [← hj] at hi
        exact absurd hi (hothers i hi')
      · rw [owns_setPort_ne hj'] at hj
        exact h.law.unique p hp i j hi hj
  · rcases eq_or_ne p port with rfl | hne
    · rw [hself, Option.some_inj]
      rcases eq_or_ne i sock with rfl | hi
      · rw [owns_setPort_self hused]
        exact ⟨fun _ => rfl, fun _ => rfl⟩
      · rw [owns_setPort_ne hi]
        exact ⟨fun heq => absurd heq.symm hi, fun hi' => absurd hi' (hothers i hi)⟩
    · rw [Tables.setPort, port2sock_add_ne hp hne, port2sock_set, h.law.lookup p hp i]
      rcases eq_or_ne i sock with rfl | hi
      · rw [← Tables.setPort, owns_setPort_self hused]
        constructor
        · intro hi
          rcases hown with hsame | ⟨hzero, -⟩
          · exact absurd (hi.2.symm.trans hsame) hne
          · exact absurd (hi.2.symm.trans hzero) hp
        · exact fun heq => absurd heq.symm hne
      · rw [← Tables.setPort, owns_setPort_ne hi]

/-- A port that can be given to a socket with the law was free for it. -/
theorem Inv.free_of_law (h : Inv s) (hused : (s.socket_table sock).used = true) (hport : port ≠ 0)
    (hlaw : Law (s.setPort sock port)) : Free s sock port := by
  have hself : (s.setPort sock port).Owns sock port := (owns_setPort_self hused port).mpr rfl
  have hothers : ∀ j, j ≠ sock → ¬ s.Owns j port := by
    intro j hne hj
    exact hne (hlaw.unique port hport j sock ((owns_setPort_ne hne port).mpr hj) hself)
  refine ⟨hothers, ?_⟩
  by_contra hnot
  rw [not_or] at hnot
  rcases hnot with ⟨hdiff, hnoroom⟩
  rcases eq_or_ne (s.socket_table sock).src_port 0 with hzero | hnonzero
  · -- the socket owns the port without an entry
    have hnone : ∀ i, ¬ s.Owns i port := by
      intro i hi
      rcases eq_or_ne i sock with rfl | hne
      · exact hdiff hi.2
      · exact hothers i hne hi
    have hfind := (hlaw.lookup port hport sock).mpr hself
    have hlost : (s.setPort sock port).port2sock port = none :=
      (port2sock_add_self (s := s.setSocket sock _) hport (h.no_entry hport hnone)).trans
        (if_neg fun hroom => hnoroom ⟨hzero, hroom⟩)
    rw [hlost] at hfind
    cases hfind
  · -- the entry for the old port stays
    have hold := (h.law.lookup _ hnonzero sock).mpr ⟨hused, rfl⟩
    have hfind : (s.setPort sock port).port2sock (s.socket_table sock).src_port = some sock := by
      rw [Tables.setPort, port2sock_add_ne hnonzero hdiff]
      exact hold
    have howns := (hlaw.lookup _ hnonzero sock).mp hfind
    exact hdiff ((owns_setPort_self hused _).mp howns).symm

theorem Inv.setPort_zero (h : Inv s) (hzero : (s.socket_table sock).src_port = 0) : Inv (s.setPort sock 0) := by
  refine h.same (fun i p hp => ?_) (fun p hp => port2sock_add_ne hp hp) (filled_add h.filled)
  rw [Tables.setPort, owns_add]
  rcases eq_or_ne i sock with rfl | hne
  · rw [owns_set_self, Tables.Owns, hzero]
  · rw [owns_set_ne hne]

/-! ## Closing -/

theorem owns_free (i : Fin NSOCKET) (p : Int) : (s.free_mapping port).1.Owns i p ↔ s.Owns i p := by
  unfold Tables.free_mapping
  split
  · exact Iff.rfl
  · exact Iff.rfl

theorem port2sock_free_ne {p : Int} (hp : p ≠ 0) (hne : p ≠ port) : (s.free_mapping port).1.port2sock p = s.port2sock p := by
  unfold Tables.free_mapping
  split
  next i hi =>
    have hport := port_of_entry hi
    have hentry : entryOf (update s.map i { s.map i with port := 0 }) p = entryOf s.map p :=
      entryOf_update_ne (by rw [hport]; exact hne.symm) hp.symm
    rw [Tables.port2sock, Tables.port2sock, if_neg hp, if_neg hp, hentry]
    cases hold : entryOf s.map p with
    | none => rfl
    | some j =>
      have hji : j ≠ i := by
        rintro rfl
        exact hne ((port_of_entry hold).symm.trans hport)
      show (update s.map i _ j).sock = (s.map j).sock
      rw [update_of_ne hji]
  next => rfl

theorem entry_free (hport : port ≠ 0) (i : Fin SIZE) :
    ((s.free_mapping port).1.map i).port = port ↔ (s.map i).port = port ∧ entryOf s.map port ≠ some i := by
  unfold Tables.free_mapping
  split
  next j hj =>
    rw [hj]
    show (update s.map j _ i).port = port ↔ _
    rcases eq_or_ne i j with rfl | hne
    · rw [update_self]
      exact ⟨fun h => absurd h.symm hport, fun h => absurd rfl h.2⟩
    · rw [update_of_ne hne]
      exact ⟨fun h => ⟨h, fun heq => hne (Option.some.inj heq).symm⟩, fun h => h.1⟩
  next hnone =>
    rw [hnone]
    exact ⟨fun h => ⟨h, nofun⟩, fun h => h.1⟩

theorem filled_free (h : ∀ i, (s.map i).port ≠ 0 → (s.map i).sock ≠ none) (i : Fin SIZE) :
    ((s.free_mapping port).1.map i).port ≠ 0 → ((s.free_mapping port).1.map i).sock ≠ none := by
  unfold Tables.free_mapping
  split
  next j hj =>
    show (update s.map j _ i).port ≠ 0 → (update s.map j _ i).sock ≠ none
    rcases eq_or_ne i j with rfl | hne
    · rw [update_self]
      exact fun hzero => absurd rfl hzero
    · rw [update_of_ne hne]
      exact h i
  next => exact h i

theorem owns_closed_self (p : Int) : ¬ (s.free_socket sock).Owns sock p := by
  rw [Tables.free_socket, owns_free, owns_set_self]
  exact fun h => Bool.false_ne_true h.1

theorem owns_closed_ne {i : Fin NSOCKET} (hne : i ≠ sock) (p : Int) : (s.free_socket sock).Owns i p ↔ s.Owns i p := by
  rw [Tables.free_socket, owns_free, owns_set_ne hne]

/-- A socket that was recorded once is closed. -/
theorem Inv.free_socket (h : Inv s) (hused : (s.socket_table sock).used = true) (hok : Ok s (.close sock)) :
    Inv (s.free_socket sock) := by
  refine ⟨⟨fun p hp i j hi hj => ?_, fun p hp i => ?_⟩, filled_free h.filled⟩
  · rcases eq_or_ne i sock with rfl | hi'
    · exact absurd hi (owns_closed_self p)
    · rcases eq_or_ne j sock with rfl | hj'
      · exact absurd hj (owns_closed_self p)
      · exact h.law.unique p hp i j ((owns_closed_ne hi' p).mp hi) ((owns_closed_ne hj' p).mp hj)
  · rcases eq_or_ne p (s.socket_table sock).src_port with rfl | hne
    · -- the only entry of the port goes
      have hgone : entryOf (s.free_socket sock).map (s.socket_table sock).src_port = none := by
        rw [entryOf_eq_none]
        intro k hk
        rcases (entry_free (s := s.setSocket sock _) hp k).mp hk with ⟨hport, hfirst⟩
        rcases exists_entry hport with ⟨e, he⟩
        rcases hok with hzero | hone
        · exact hp hzero
        · rw [hone k e hport (port_of_entry he)] at hfirst
          exact hfirst he
      rw [Tables.port2sock, if_neg hp, hgone]
      refine ⟨nofun, fun hi => ?_⟩
      rcases eq_or_ne i sock with rfl | hi'
      · exact absurd hi (owns_closed_self _)
      · exact absurd (h.law.unique _ hp i sock ((owns_closed_ne hi' _).mp hi) ⟨hused, rfl⟩) hi'
    · rw [Tables.free_socket, port2sock_free_ne hp hne, port2sock_set, h.law.lookup p hp i, ← Tables.free_socket]
      rcases eq_or_ne i sock with rfl | hi'
      · exact ⟨fun hi => absurd hi.2.symm hne, fun hi => absurd hi (owns_closed_self p)⟩
      · rw [owns_closed_ne hi']

/-- A second entry of the port would find a socket that does not own it. -/
theorem Inv.once_of_law (h : Inv s) (hused : (s.socket_table sock).used = true) (hlaw : Law (s.free_socket sock)) :
    Ok s (.close sock) := by
  rcases eq_or_ne (s.socket_table sock).src_port 0 with hzero | hp
  · exact .inl hzero
  right
  have hnone : ∀ k, ((s.free_socket sock).map k).port ≠ (s.socket_table sock).src_port := by
    intro k hk
    rcases exists_entry hk with ⟨e, he⟩
    have hport : ((s.free_socket sock).map e).port = (s.socket_table sock).src_port := port_of_entry he
    have hfilled : ((s.free_socket sock).map e).sock ≠ none := by
      apply filled_free (s := s.setSocket sock _) h.filled e
      show ((s.free_socket sock).map e).port ≠ 0
      rw [hport]
      exact hp
    obtain ⟨x, hx⟩ := Option.ne_none_iff_exists'.mp hfilled
    have hfind : (s.free_socket sock).port2sock (s.socket_table sock).src_port = some x :=
      (port2sock_eq_some hp).mpr ⟨e, he, hx⟩
    have howns := (hlaw.lookup _ hp x).mp hfind
    rcases eq_or_ne x sock with rfl | hne
    · exact owns_closed_self _ howns
    · exact hne (h.law.unique _ hp x sock ((owns_closed_ne hne _).mp howns) ⟨hused, rfl⟩)
  intro i j hi hj
  have hfirst : ∀ k, (s.map k).port = (s.socket_table sock).src_port →
      entryOf s.map (s.socket_table sock).src_port = some k := by
    intro k hk
    by_contra hne
    exact hnone k ((entry_free (s := s.setSocket sock _) hp k).mpr ⟨hk, hne⟩)
  have heq := (hfirst i hi).symm.trans (hfirst j hj)
  exact Option.some.inj heq

/-! ## The other calls -/

theorem Inv.alloc_socket (h : Inv s) (hcall : s.alloc_socket = some (s', sock)) : Inv s' := by
  obtain ⟨i, hi, heq⟩ := Option.map_eq_some_iff.mp hcall
  cases heq
  unfold Tables.unused at hi
  have hfirst := List.find?_some hi
  have hunused : (s.socket_table sock).used = false := of_decide_eq_true hfirst
  refine h.same (fun j p hp => ?_) (fun _ _ => rfl) h.filled
  rcases eq_or_ne j sock with rfl | hne
  · rw [owns_set_self, Tables.Owns, hunused]
    exact ⟨fun hown => absurd hown.2.symm hp, fun hown => absurd hown.1 Bool.false_ne_true⟩
  · exact owns_set_ne hne p

theorem owns_dst (port' : Int) (i : Fin NSOCKET) (p : Int) :
    (s.setSocket sock { s.socket_table sock with dst_port := port' }).Owns i p ↔ s.Owns i p := by
  rcases eq_or_ne i sock with rfl | hne
  · exact owns_set_self p
  · exact owns_set_ne hne p

theorem inv_dst {port' : Int} : Inv (s.setSocket sock { s.socket_table sock with dst_port := port' }) ↔ Inv s := by
  constructor
  · intro h
    exact h.same (fun i p _ => (owns_dst _ i p).symm) (fun _ _ => rfl) h.filled
  · intro h
    exact h.same (fun i p _ => owns_dst _ i p) (fun _ _ => rfl) h.filled

theorem Inv.autobind (h : Inv s) (hused : (s.socket_table sock).used = true) (hok : AutoOk s sock) : Inv (s.autobind sock) := by
  unfold Tables.autobind
  split
  next hzero =>
    rcases eq_or_ne s.PORT 0 with hP | hP
    · have hinv : Inv (s.assign_port.1.setPort sock 0) := h.assign.setPort_zero hzero
      rw [show s.assign_port.2 = 0 from hP]
      exact hinv
    · rcases hok hzero with hP' | hfree
      · exact absurd hP' hP
      · exact h.assign.setPort hused hP hfree
  next => exact h

theorem Inv.autoOk_of_law (h : Inv s) (hused : (s.socket_table sock).used = true) (hlaw : Law (s.autobind sock)) :
    AutoOk s sock := by
  intro hzero
  rw [Tables.autobind, if_pos hzero] at hlaw
  rcases eq_or_ne s.PORT 0 with hP | hP
  · exact .inl hP
  · exact .inr (h.assign.free_of_law hused hP hlaw)

end Calls

/-! ## The bind -/

section Bind

variable {s : Tables} {sock : Fin NSOCKET} {port : Int} {sin_family s_addr : Nat} {sin_port : UInt16}

theorem sys_bind_refused (h : Refused sin_family s_addr) : s.sys_bind sock sin_family s_addr sin_port = (s, -1) := by
  unfold Tables.sys_bind
  split
  · rfl
  next hfamily => exact if_pos (h.resolve_left hfamily)

theorem sys_bind_zero (h : ¬ Refused sin_family s_addr) :
    s.sys_bind sock sin_family s_addr 0 = (s.assign_port.1.setPort sock s.PORT, 0) := by
  rw [Refused, not_or] at h
  rw [Tables.sys_bind, if_neg h.1, if_neg h.2, if_pos rfl]
  rfl

theorem sys_bind_port (h : ¬ Refused sin_family s_addr) (hport : sin_port ≠ 0) :
    s.sys_bind sock sin_family s_addr sin_port = (s.setPort sock sin_port.toNat, 0) := by
  rw [Refused, not_or] at h
  rw [Tables.sys_bind, if_neg h.1, if_neg h.2, if_neg hport]

theorem sin_port_ne (h : sin_port ≠ 0) : ((sin_port.toNat : Nat) : Int) ≠ 0 := by
  intro hzero
  apply h
  apply UInt16.toNat.inj
  exact_mod_cast hzero

theorem src_port_setPort : ((s.setPort sock port).socket_table sock).src_port = port := by
  unfold Tables.setPort Tables.add_mapping
  split
  · show (update s.socket_table sock _ sock).src_port = port
    rw [update_self]
  · show (update s.socket_table sock _ sock).src_port = port
    rw [update_self]

theorem recorded_bind {r : Tables × Int} (hr : s.sys_bind sock sin_family s_addr sin_port = r) :
    Recorded s (.sys_bind sock sin_family s_addr sin_port) ↔
      (r.2 = 0 → r.1.port2sock (r.1.socket_table sock).src_port = some sock) := by
  subst hr
  exact Iff.rfl

/-- A bind that is refused, or for a port that is free for the socket. -/
theorem Inv.sys_bind (h : Inv s) (hused : (s.socket_table sock).used = true)
    (hok : Ok s (.sys_bind sock sin_family s_addr sin_port)) :
    Inv (s.sys_bind sock sin_family s_addr sin_port).1 ∧ Recorded s (.sys_bind sock sin_family s_addr sin_port) := by
  rcases em (Refused sin_family s_addr) with hrefused | hdone
  · -- the answer is -1
    rw [recorded_bind (sys_bind_refused hrefused), sys_bind_refused hrefused]
    exact ⟨h, fun hzero => absurd (show (-1 : Int) = 0 from hzero) (by decide)⟩
  have hfree := hok.resolve_left hdone
  rcases eq_or_ne sin_port 0 with rfl | hport
  · rw [if_pos rfl] at hfree
    rw [recorded_bind (sys_bind_zero hdone), sys_bind_zero hdone]
    dsimp only
    rw [src_port_setPort]
    have hassigned : Inv s.assign_port.1 := h.assign
    exact ⟨hassigned.setPort hused hfree.1 hfree.2, fun _ => hassigned.port2sock_setPort hused hfree.1 hfree.2⟩
  · rw [if_neg hport] at hfree
    rw [recorded_bind (sys_bind_port hdone hport), sys_bind_port hdone hport]
    dsimp only
    rw [src_port_setPort]
    have hne := sin_port_ne hport
    exact ⟨h.setPort hused hne hfree, fun _ => h.port2sock_setPort hused hne hfree⟩

/-- The law after a bind, and the record of it, are had in no other way. -/
theorem Inv.bind_of_law (h : Inv s) (hused : (s.socket_table sock).used = true)
    (hlaw : Law (s.sys_bind sock sin_family s_addr sin_port).1)
    (hrecorded : Recorded s (.sys_bind sock sin_family s_addr sin_port)) :
    Ok s (.sys_bind sock sin_family s_addr sin_port) := by
  rcases em (Refused sin_family s_addr) with hrefused | hdone
  · exact .inl hrefused
  right
  rcases eq_or_ne sin_port 0 with rfl | hport
  · rw [if_pos rfl]
    rw [sys_bind_zero hdone] at hlaw
    have hfound := (recorded_bind (sys_bind_zero hdone)).mp hrecorded rfl
    dsimp only at hfound
    rw [src_port_setPort] at hfound
    have hne : s.PORT ≠ 0 := by
      -- no socket is found under the port 0
      intro hzero
      rw [Tables.port2sock, if_pos hzero] at hfound
      cases hfound
    exact ⟨hne, h.assign.free_of_law hused hne hlaw⟩
  · rw [if_neg hport]
    rw [sys_bind_port hdone hport] at hlaw
    exact h.free_of_law hused (sin_port_ne hport) hlaw

end Bind

/-! ## Runs -/

section Runs

variable {s s' : Tables} {e : Event}

theorem inv_boot : Inv boot := by
  have hnone : ∀ i port, port ≠ 0 → ¬ boot.Owns i port := fun _ _ _ h => Bool.false_ne_true h.1
  refine ⟨⟨fun port hport i _ hi _ => absurd hi (hnone i port hport), fun port hport i => ?_⟩, fun _ h => absurd rfl h⟩
  rw [port2sock_eq_some hport]
  constructor
  · rintro ⟨j, hj, -⟩
    exact absurd (port_of_entry hj).symm hport
  · exact fun hi => absurd hi (hnone i port hport)

theorem Inv.step (h : Inv s) (hok : Ok s e) (hstep : Step s e s') : Inv s' ∧ Recorded s e := by
  rcases hstep with ⟨hused, hcall⟩
  cases e with
  | sys_socket =>
    obtain ⟨⟨t, i⟩, halloc, heq⟩ := Option.map_eq_some_iff.mp hcall
    cases heq
    exact ⟨h.alloc_socket halloc, trivial⟩
  | sys_bind sock sin_family s_addr sin_port =>
    cases hcall
    exact h.sys_bind (hused sock rfl) hok
  | sys_connect sock sin_port =>
    cases hcall
    exact ⟨inv_dst.mpr (h.autobind (hused sock rfl) hok), trivial⟩
  | sys_sendto sock sin_port =>
    cases hcall
    exact ⟨inv_dst.mpr (h.autobind (hused sock rfl) hok), trivial⟩
  | close sock =>
    cases hcall
    exact ⟨h.free_socket (hused sock rfl) hok, trivial⟩

theorem law_dst {sock : Fin NSOCKET} {port' : Int} (h : Law (s.setSocket sock { s.socket_table sock with dst_port := port' })) :
    Law s := by
  refine ⟨fun port hport i j hi hj => ?_, fun port hport i => ?_⟩
  · exact h.unique port hport i j ((owns_dst _ i port).mpr hi) ((owns_dst _ j port).mpr hj)
  · rw [← owns_dst port' i port]
    exact h.lookup port hport i

theorem Inv.ok_of_keeps (h : Inv s) (hstep : Step s e s') (hkeeps : Keeps s e) : Ok s e := by
  rcases hkeeps s' hstep with ⟨hlaw, hrecorded⟩
  rcases hstep with ⟨hused, hcall⟩
  cases e with
  | sys_socket => trivial
  | sys_bind sock sin_family s_addr sin_port =>
    cases hcall
    exact h.bind_of_law (hused sock rfl) hlaw hrecorded
  | sys_connect sock sin_port =>
    cases hcall
    exact h.autoOk_of_law (hused sock rfl) (law_dst hlaw)
  | sys_sendto sock sin_port =>
    cases hcall
    exact h.autoOk_of_law (hused sock rfl) (law_dst hlaw)
  | close sock =>
    cases hcall
    exact h.once_of_law (hused sock rfl) hlaw

/-- **The port table.** The calls keep the law, and record what they bind, as long as no port is taken that is not
free for the socket and none is freed that is recorded twice; and in no other run. -/
theorem port_table {es : List Event} :
    (Run (Guarded Step Keeps) boot es s ↔ Run (Guarded Step Ok) boot es s) ∧
      (Run (Guarded Step Ok) boot es s → Law s) := by
  have hkeep : ∀ s e s', Inv s → Ok s e → Step s e s' → Inv s' := fun s e s' h hok hstep => (h.step hok hstep).1
  refine ⟨Run.guarded_iff hkeep (fun s e s' h hstep => ?_) inv_boot, fun hrun => ?_⟩
  · constructor
    · exact h.ok_of_keeps hstep
    · intro hok t hstep'
      have hinv := h.step hok hstep'
      exact ⟨hinv.1.law, hinv.2⟩
  · have hinv : Inv s := Run.invariant (fun s e s' h hstep => hkeep s e s' h hstep.1 hstep.2) hrun inv_boot
    exact hinv.law

/-- Two sockets bind the port 80, and `bind` returns 0 to both. -/
theorem shared_port : ¬ ∀ es s, Run Step boot es s → Law s := by
  intro hlaw
  obtain ⟨s, hrun, hfst, hsnd⟩ : ∃ s, Run Step boot
      [.sys_socket, .sys_socket, .sys_bind 0 2 0 80, .sys_bind 1 2 0 80] s ∧ s.Owns 0 80 ∧ s.Owns 1 80 := by
    refine ⟨_, .cons ⟨nofun, rfl⟩ (.cons ⟨nofun, rfl⟩ (.cons ⟨?_, rfl⟩ (.cons ⟨?_, rfl⟩ (.nil _)))), ?_, ?_⟩
    · rintro _ ⟨⟩
      decide
    · rintro _ ⟨⟩
      decide
    · exact ⟨by decide, by decide⟩
    · exact ⟨by decide, by decide⟩
  have heq := (hlaw _ s hrun).unique 80 (by decide) 0 1 hfst hsnd
  exact absurd heq (by decide)

end Runs

end LostWakeup.Ipc.Ports
