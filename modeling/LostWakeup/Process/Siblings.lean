/-
# LostWakeup.Process.Siblings — `proc/pcb_life.c`: the rings of children.

The children of a process are linked through their `sibling_list`s in a ring without a head; the process points to one of
them.  `reparent` walks the ring while it takes it apart, which works because the next child is read before the current
one is deleted.

What `fork`, `waitpid` and `exit` do besides, the locks, and the signals of `reparent` are left out.
-/
import LostWakeup.Library.Links
import LostWakeup.Library.Run

namespace LostWakeup.Process.Siblings

open Library
open Function (update update_idem update_of_ne update_self)

/-! ## Processes -/

inductive procstate
  | PCB_UNUSED
  | PCB_USED
  | PCB_ZOMBIE
  deriving DecidableEq

/-- The fields of `struct proc`, by the slot in the table; a null pointer is `none`. -/
@[ext]
structure Tree where
  state : Nat → procstate
  parent : Nat → Option Nat
  first_child : Nat → Option Nat
  sibling_list : Links Nat

/-- The slot of the first process. -/
def initproc : Nat := 0

namespace Tree

def setState (s : Tree) (p : Nat) (v : procstate) : Tree := { s with state := update s.state p v }

def setParent (s : Tree) (p : Nat) (v : Option Nat) : Tree := { s with parent := update s.parent p v }

def setFirst (s : Tree) (p : Nat) (v : Option Nat) : Tree := { s with first_child := update s.first_child p v }

def deleteChild (s : Tree) (parent child : Nat) : Tree :=
  if s.sibling_list.next child = child then s.setFirst parent none
  else
    let s := if s.first_child parent = some child then s.setFirst parent (some (s.sibling_list.next child)) else s
    { s with sibling_list := s.sibling_list.delInit child }

def appendChild (s : Tree) (parent child : Nat) : Tree :=
  match s.first_child parent with
  | none => s.setFirst parent (some child)
  | some first => { s with sibling_list := s.sibling_list.addTail child first }

/-- The process in the slot `p`, without children and siblings. -/
def alloc_proc (s : Tree) (p : Nat) : Tree :=
  ({ s with sibling_list := s.sibling_list.init p }.setFirst p none).setState p .PCB_USED

def do_clone (s : Tree) (p np : Nat) : Tree := ((s.alloc_proc np).setParent np (some p)).appendChild p np

/-- The end of `waitpid` for the child `c`: `free_proc` and `deleteChild`. -/
def reap (s : Tree) (p c : Nat) : Tree := ((s.setParent c none).setState c .PCB_UNUSED).deleteChild p c

/-- The child goes to `initproc`. -/
def adopt (s : Tree) (p child : Nat) : Tree :=
  ((s.deleteChild p child).appendChild initproc child).setParent child (some initproc)

/-- `list_for_each_entry_safe_given_first` in `reparent`, as long as the fuel lasts. -/
def reparentLoop (p first : Nat) : Nat → Tree → Nat → Nat → Bool → Option Tree
  | 0, _, _, _, _ => none
  | fuel + 1, s, pos, n, flag =>
    if flag ∨ pos ≠ first then
      let s := s.adopt p pos
      if s.first_child p = none then some s
      else reparentLoop p first fuel s n (s.sibling_list.next n) false
    else some s

def reparent (fuel : Nat) (s : Tree) (p : Nat) : Option Tree :=
  match s.first_child p with
  | none => some s
  | some first => reparentLoop p first fuel s first (s.sibling_list.next first) true

/-- `list_for_each_entry_given_first`: the nodes that are visited from `pos` on. -/
def forEach (s : Tree) (first : Nat) : Nat → Nat → Option (List Nat)
  | 0, _ => none
  | fuel + 1, pos =>
    let next := s.sibling_list.next pos
    if next = first then some [pos] else (s.forEach first fuel next).map fun l => pos :: l

end Tree

inductive Event
  | appendChild (p c : Nat)
  | deleteChild (p c : Nat)
  | alloc_proc (p : Nat)
  | do_clone (p np : Nat)
  | waitpid (p c : Nat)
  | reparent (p : Nat)
  | exit_process (p : Nat)

/-- One event: a process that is appended has no parent and gets this one, only children are deleted or waited for,
and `initproc` does not exit. -/
def Step (s : Tree) : Event → Tree → Prop
  | .appendChild p c, s' => s.state p = .PCB_USED ∧ s.state c ≠ .PCB_UNUSED ∧ s.parent c = none ∧
      s' = (s.setParent c (some p)).appendChild p c
  | .deleteChild p c, s' => s.parent c = some p ∧ s' = (s.setParent c none).deleteChild p c
  | .alloc_proc p, s' => s.state p = .PCB_UNUSED ∧ s' = s.alloc_proc p
  | .do_clone p np, s' => s.state p = .PCB_USED ∧ s.state np = .PCB_UNUSED ∧ s' = s.do_clone p np
  | .waitpid p c, s' => s.parent c = some p ∧ s.state c = .PCB_ZOMBIE ∧ s' = s.reap p c
  | .reparent p, s' => p ≠ initproc ∧ ∃ fuel, s.reparent fuel p = some s'
  | .exit_process p, s' => p ≠ initproc ∧ s.state p = .PCB_USED ∧
      ∃ fuel t, s.reparent fuel p = some t ∧ s' = t.setState p .PCB_ZOMBIE

/-- After `userinit`; the links of slots that were never taken are arbitrary. -/
def boot (k : Links Nat) : Tree where
  state := update (fun _ => .PCB_UNUSED) initproc .PCB_USED
  parent _ := none
  first_child _ := none
  sibling_list := k.init initproc

/-! ## The law -/

/-- The walk of the ring from `first_child` on visits `l` and ends. -/
def Enumerates (s : Tree) (p : Nat) (l : List Nat) : Prop :=
  match s.first_child p with
  | none => l = []
  | some first => ∃ n, ∀ fuel, n ≤ fuel → s.forEach first fuel first = some l

/-- The ring of every process enumerates its children, each once. -/
def Law (s : Tree) : Prop := ∀ p, ∃ l, Enumerates s p l ∧ l.Nodup ∧ ∀ c, c ∈ l ↔ s.parent c = some p

/-- All children of `p`, and no others, have gone to `initproc`. -/
structure Adopted (s s' : Tree) (p : Nat) : Prop where
  childless : s'.first_child p = none
  parent : ∀ c, s'.parent c = if s.parent c = some p then some initproc else s.parent c
  law : Law s'

/-! ## The rings as lists -/

/-- The rings of the children are the lists `kids`, and an allocated process that is in none is a ring of its own. -/
structure Rings (s : Tree) (allocated : Nat → Prop) (kids : Nat → List Nat) : Prop where
  first : ∀ p, s.first_child p = (kids p).head?
  ring : ∀ p c l, kids p = c :: l → s.sibling_list.Ring c l
  disjoint : ∀ p q c, c ∈ kids p → c ∈ kids q → p = q
  alone : ∀ c, allocated c → (∀ q, c ∉ kids q) → s.sibling_list.Ring c []

section Rings

variable {s : Tree} {allocated : Nat → Prop} {kids : Nat → List Nat} {p c : Nat} {l : List Nat}

theorem Rings.nodup (h : Rings s allocated kids) (p : Nat) : (kids p).Nodup := by
  cases hkids : kids p with
  | nil => exact List.nodup_nil
  | cons c l => exact (h.ring p c l hkids).2

theorem Rings.mono {allocated' : Nat → Prop} (h : Rings s allocated kids) (hsub : ∀ c, allocated' c → allocated c) :
    Rings s allocated' kids :=
  ⟨h.first, h.ring, h.disjoint, fun c hc hfree => h.alone c (hsub c hc) hfree⟩

theorem Rings.congr {s' : Tree} (h : Rings s allocated kids) (hfirst : s'.first_child = s.first_child)
    (hlinks : s'.sibling_list = s.sibling_list) : Rings s' allocated kids := by
  refine ⟨fun p => ?_, fun p c l hkids => ?_, h.disjoint, fun c hc hfree => ?_⟩
  · rw [hfirst]
    exact h.first p
  · rw [hlinks]
    exact h.ring p c l hkids
  · rw [hlinks]
    exact h.alone c hc hfree

theorem forEach_of_path {first pos : Nat} (hpath : s.sibling_list.Path pos l first) (hfirst : first ∉ l) :
    ∀ fuel, l.length < fuel → s.forEach first fuel pos = some (pos :: l) := by
  induction l generalizing pos with
  | nil =>
    intro fuel hfuel
    obtain ⟨fuel, rfl⟩ := Nat.exists_eq_add_one_of_ne_zero (Nat.ne_of_gt hfuel)
    exact if_pos hpath.1
  | cons y l ih =>
    intro fuel hfuel
    obtain ⟨fuel, rfl⟩ := Nat.exists_eq_add_one_of_ne_zero (Nat.ne_of_gt (Nat.zero_lt_of_lt hfuel))
    have hne : y ≠ first := fun heq => hfirst (heq ▸ List.mem_cons_self)
    have hrest := ih hpath.2 (List.not_mem_of_not_mem_cons hfirst) fuel (Nat.lt_of_succ_lt_succ hfuel)
    show (if s.sibling_list.next pos = first then _ else (s.forEach first fuel (s.sibling_list.next pos)).map _) = _
    rw [hpath.1.1, if_neg hne, hrest]
    rfl

theorem Rings.enumerates (h : Rings s allocated kids) (p : Nat) : Enumerates s p (kids p) := by
  unfold Enumerates
  rw [h.first p]
  cases hkids : kids p with
  | nil => rfl
  | cons c l =>
    obtain ⟨hpath, hnodup⟩ := h.ring p c l hkids
    exact ⟨l.length + 1, forEach_of_path hpath (List.nodup_cons.mp hnodup).1⟩

theorem mem_append_kids {q d : Nat} : d ∈ update kids p (kids p ++ [c]) q ↔ d ∈ kids q ∨ d = c ∧ q = p := by
  rcases eq_or_ne q p with heq | hq
  · subst heq
    rw [update_self, List.mem_append, List.mem_singleton]
    exact ⟨Or.imp_right fun hd => ⟨hd, rfl⟩, Or.imp_right And.left⟩
  · rw [update_of_ne hq]
    exact ⟨Or.inl, fun hd => hd.resolve_right fun h => hq h.2⟩

/-- A process that is no child joins the end of a list. -/
theorem Rings.appendChild (h : Rings s allocated kids) (hc : allocated c) (hfree : ∀ q, c ∉ kids q) :
    Rings (s.appendChild p c) allocated (update kids p (kids p ++ [c])) := by
  have hself := h.alone c hc hfree
  have hdisjoint : ∀ q r d, d ∈ update kids p (kids p ++ [c]) q →
      d ∈ update kids p (kids p ++ [c]) r → q = r := by
    intro q r d hq hr
    rcases mem_append_kids.mp hq with hq | ⟨hd, hq⟩
    · rcases mem_append_kids.mp hr with hr | ⟨hd, -⟩
      · exact h.disjoint q r d hq hr
      · exact absurd (hd ▸ hq) (hfree q)
    · rcases mem_append_kids.mp hr with hr | ⟨-, hr⟩
      · exact absurd (hd ▸ hr) (hfree r)
      · exact hq.trans hr.symm
  have hfirst := h.first p
  unfold Tree.appendChild
  cases hkids : kids p with
  | nil =>
    rw [hkids] at hfirst
    rw [hfirst, List.nil_append]
    rw [hkids, List.nil_append] at hdisjoint
    refine ⟨fun q => ?_, fun q d l hl => ?_, hdisjoint, fun d hd hdfree => ?_⟩
    · show update s.first_child p (some c) q = _
      rcases eq_or_ne q p with rfl | hq
      · rw [update_self, update_self]
        rfl
      · rw [update_of_ne hq, update_of_ne hq]
        exact h.first q
    · rcases eq_or_ne q p with rfl | hq
      · rw [update_self] at hl
        cases hl
        exact hself
      · rw [update_of_ne hq] at hl
        exact h.ring q d l hl
    · refine h.alone d hd fun q hq => hdfree q ?_
      have hqp : q ≠ p := by
        rintro rfl
        rw [hkids] at hq
        cases hq
      rw [update_of_ne hqp]
      exact hq
  | cons x l =>
    rw [hkids] at hfirst
    rw [hfirst]
    rw [hkids] at hdisjoint
    have hring := h.ring p x l hkids
    have hcx : c ∉ x :: l := hkids ▸ hfree p
    have hother : ∀ z m, s.sibling_list.Ring z m → c ∉ z :: m → (∀ w ∈ x :: l, w ∉ z :: m) →
        (s.sibling_list.addTail c x).Ring z m := fun z m hz => hring.addTail_other hz
    refine ⟨fun q => ?_, fun q d m hm => ?_, hdisjoint, fun d hd hdfree => ?_⟩
    · show s.first_child q = _
      rw [h.first q]
      rcases eq_or_ne q p with rfl | hq
      · rw [update_self, hkids]
        rfl
      · rw [update_of_ne hq]
    · rcases eq_or_ne q p with rfl | hq
      · rw [update_self] at hm
        cases hm
        exact hring.addTail hcx
      · rw [update_of_ne hq] at hm
        refine hother d m (h.ring q d m hm) (hm ▸ hfree q) fun w hw hwm => ?_
        exact hq (h.disjoint q p w (hm ▸ hwm) (hkids ▸ hw))
    · have hdc : d ≠ c := by
        rintro rfl
        apply hdfree p
        rw [update_self]
        exact List.mem_append_right _ (List.mem_singleton.mpr rfl)
      have hdkids : ∀ q, d ∉ kids q := by
        intro q hq
        have hin : d ∈ update kids p (kids p ++ [c]) q := mem_append_kids.mpr (.inl hq)
        rw [hkids] at hin
        exact hdfree q hin
      refine hother d [] (h.alone d hd hdkids) ?_ fun w hw hwd => ?_
      · rw [List.mem_singleton]
        exact hdc.symm
      · rw [List.mem_singleton.mp hwd, ← hkids] at hw
        exact hdkids p hw

theorem mem_erase_kids (h : Rings s allocated kids) (hc : c ∈ kids p) {q d : Nat} :
    d ∈ update kids p ((kids p).erase c) q ↔ d ∈ kids q ∧ d ≠ c := by
  rcases eq_or_ne q p with heq | hq
  · subst heq
    rw [update_self, (h.nodup q).mem_erase_iff]
    exact and_comm
  rw [update_of_ne hq]
  refine ⟨fun hd => ⟨hd, ?_⟩, And.left⟩
  rintro rfl
  exact hq (h.disjoint q p d hd hc)

theorem Rings.ring_of_mem (h : Rings s allocated kids) (hc : c ∈ kids p) :
    ∃ l, s.sibling_list.Ring c l ∧ (∀ w, w ∈ c :: l ↔ w ∈ kids p) ∧ (l = [] → kids p = [c]) := by
  cases hkids : kids p with
  | nil =>
    rw [hkids] at hc
    cases hc
  | cons x l =>
    have hring := h.ring p x l hkids
    rw [hkids] at hc
    rcases List.mem_cons.mp hc with rfl | hcl
    · exact ⟨l, hring, fun w => Iff.rfl, fun hl => by rw [hl]⟩
    obtain ⟨l₁, l₂, rfl⟩ := List.append_of_mem hcl
    refine ⟨l₂ ++ x :: l₁, hring.rotate, fun w => ?_, fun hl => ?_⟩
    · simp only [List.mem_cons, List.mem_append]
      tauto
    · exact absurd hl (List.append_ne_nil_of_right_ne_nil _ (List.cons_ne_nil _ _))

theorem Rings.deleted {s' : Tree} (h : Rings s allocated kids) (hc : c ∈ kids p)
    (hlinks : s'.sibling_list = s.sibling_list.delInit c) (hothers : ∀ q, q ≠ p → s'.first_child q = s.first_child q)
    (hfirst : s'.first_child p = ((kids p).erase c).head?)
    (hring : ∀ d m, (kids p).erase c = d :: m → (s.sibling_list.delInit c).Ring d m) :
    Rings s' allocated (update kids p ((kids p).erase c)) := by
  obtain ⟨l, hcring, hmem, -⟩ := h.ring_of_mem hc
  refine ⟨fun q => ?_, fun q d m hm => ?_, fun q r d hq hr => ?_, fun d hd hdfree => ?_⟩
  · rcases eq_or_ne q p with rfl | hq
    · rw [update_self]
      exact hfirst
    · rw [update_of_ne hq, hothers q hq]
      exact h.first q
  · rw [hlinks]
    rcases eq_or_ne q p with rfl | hq
    · rw [update_self] at hm
      exact hring d m hm
    · rw [update_of_ne hq] at hm
      refine hcring.delInit_other (h.ring q d m hm) fun w hw hwm => ?_
      exact hq (h.disjoint q p w (hm ▸ hwm) ((hmem w).mp hw))
  · exact h.disjoint q r d ((mem_erase_kids h hc).mp hq).1 ((mem_erase_kids h hc).mp hr).1
  · rw [hlinks]
    rcases eq_or_ne d c with rfl | hdc
    · exact Links.ring_delInit _ _
    have hdkids : ∀ q, d ∉ kids q := fun q hq => hdfree q ((mem_erase_kids h hc).mpr ⟨hq, hdc⟩)
    refine hcring.delInit_other (h.alone d hd hdkids) fun w hw hwd => ?_
    rw [List.mem_singleton.mp hwd] at hw
    exact hdkids p ((hmem d).mp hw)

/-- A child leaves its list, and is a ring of its own. -/
theorem Rings.deleteChild (h : Rings s allocated kids) (hc : c ∈ kids p) :
    Rings (s.deleteChild p c) allocated (update kids p ((kids p).erase c)) := by
  obtain ⟨l, hcring, hmem, hlast⟩ := h.ring_of_mem hc
  unfold Tree.deleteChild
  rcases eq_or_ne (s.sibling_list.next c) c with hself | hself
  · -- the only child, which is a ring of its own already
    obtain rfl := hcring.next_eq_self.mp hself
    have hempty : (kids p).erase c = [] := by rw [hlast rfl, List.erase_cons_head]
    rw [if_pos hself]
    refine h.deleted hc hcring.delInit_eq.symm (fun q hq => update_of_ne hq ..) ?_ fun d m hm => ?_
    · rw [hempty]
      exact update_self ..
    · rw [hempty] at hm
      cases hm
  · rw [if_neg hself]
    cases hkids : kids p with
    | nil =>
      rw [hkids] at hc
      cases hc
    | cons x m =>
      have hring := h.ring p x m hkids
      have hfirst : s.first_child p = some x := by
        rw [h.first p, hkids]
        rfl
      rw [hkids] at hc
      rw [← hkids]
      rcases eq_or_ne x c with rfl | hxc
      · -- the first child, and the next one becomes the first
        rw [if_pos hfirst]
        have herase : (kids p).erase x = m := by rw [hkids, List.erase_cons_head]
        cases m with
        | nil => exact absurd (hring.next_eq_self.mpr rfl) hself
        | cons y m =>
          have hnext : s.sibling_list.next x = y := hring.1.1.1
          refine h.deleted (hkids ▸ hc) rfl (fun q hq => update_of_ne hq ..) ?_ fun d n hn => ?_
          · rw [herase, hnext]
            exact update_self ..
          · rw [herase] at hn
            cases hn
            exact hring.delInit_first
      · rw [if_neg fun heq => hxc (Option.some.inj (hfirst.symm.trans heq))]
        obtain ⟨l₁, l₂, rfl⟩ := List.append_of_mem ((List.mem_cons.mp hc).resolve_left hxc.symm)
        have hnotin : c ∉ l₁ := by
          have hnodup := (List.nodup_cons.mp hring.2).2
          exact fun hmem => (List.nodup_append.mp hnodup).2.2 c hmem c List.mem_cons_self rfl
        have herase : (kids p).erase c = x :: (l₁ ++ l₂) := by
          rw [hkids, List.erase_cons_tail (by simpa using hxc), List.erase_append_right _ hnotin, List.erase_cons_head]
        refine h.deleted (hkids ▸ hc) rfl (fun _ _ => rfl) ?_ fun d n hn => ?_
        · rw [herase]
          exact hfirst
        · rw [herase] at hn
          cases hn
          exact hring.delInit

end Rings

/-! ## Parents and children -/

/-- The lists of children are those of the parent pointers, parents are used and `initproc` is. -/
structure Family (s : Tree) (kids : Nat → List Nat) : Prop where
  rings : Rings s (fun c => s.state c ≠ .PCB_UNUSED) kids
  mem : ∀ p c, c ∈ kids p ↔ s.parent c = some p
  used : ∀ p c, s.parent c = some p → s.state c ≠ .PCB_UNUSED ∧ s.state p = .PCB_USED
  init : s.state initproc = .PCB_USED

section Families

variable {s s' : Tree} {kids : Nat → List Nat} {p q c : Nat} {v : Option Nat} {st : procstate} {l : List Nat}

theorem Family.law (h : Family s kids) : Law s := fun p => ⟨kids p, h.rings.enumerates p, h.rings.nodup p, h.mem p⟩

theorem Family.free (h : Family s kids) (hc : s.parent c = none) (q : Nat) : c ∉ kids q := by
  intro hq
  rw [h.mem, hc] at hq
  cases hq

theorem Family.childless (h : Family s kids) (hp : s.state p ≠ .PCB_USED) : kids p = [] := by
  rw [List.eq_nil_iff_forall_not_mem]
  intro c hc
  exact hp (h.used p c ((h.mem p c).mp hc)).2

theorem deleteChild_frame (s : Tree) (p c : Nat) :
    (s.deleteChild p c).state = s.state ∧ (s.deleteChild p c).parent = s.parent := by
  unfold Tree.deleteChild
  split
  · exact ⟨rfl, rfl⟩
  · split
    · exact ⟨rfl, rfl⟩
    · exact ⟨rfl, rfl⟩

theorem appendChild_frame (s : Tree) (p c : Nat) :
    (s.appendChild p c).state = s.state ∧ (s.appendChild p c).parent = s.parent := by
  unfold Tree.appendChild
  split
  · exact ⟨rfl, rfl⟩
  · exact ⟨rfl, rfl⟩

theorem deleteChild_of_eq {t : Tree} (hfirst : t.first_child = s.first_child) (hlinks : t.sibling_list = s.sibling_list) :
    (t.deleteChild p c).first_child = (s.deleteChild p c).first_child ∧
      (t.deleteChild p c).sibling_list = (s.deleteChild p c).sibling_list := by
  unfold Tree.deleteChild Tree.setFirst
  rw [hlinks, hfirst]
  split
  · exact ⟨rfl, rfl⟩
  · split
    · exact ⟨rfl, rfl⟩
    · exact ⟨hfirst, congrArg (fun k => k.delInit c) hlinks⟩

theorem appendChild_of_eq {t : Tree} (hfirst : t.first_child = s.first_child) (hlinks : t.sibling_list = s.sibling_list) :
    (t.appendChild p c).first_child = (s.appendChild p c).first_child ∧
      (t.appendChild p c).sibling_list = (s.appendChild p c).sibling_list := by
  unfold Tree.appendChild Tree.setFirst
  rw [hfirst]
  split
  · exact ⟨rfl, hlinks⟩
  next first _ => exact ⟨rfl, congrArg (fun k => k.addTail c first) hlinks⟩

/-- A process that is no child becomes the last child of `p`. -/
theorem Family.append (h : Family s kids) (hp : s.state p = .PCB_USED) (hc : s.state c ≠ .PCB_UNUSED)
    (hparent : s.parent c = none) (hfirst : s'.first_child = (s.appendChild p c).first_child)
    (hlinks : s'.sibling_list = (s.appendChild p c).sibling_list) (hstate : s'.state = s.state)
    (hparent' : s'.parent = update s.parent c (some p)) :
    Family s' (update kids p (kids p ++ [c])) := by
  have hrings := (h.rings.appendChild (p := p) hc (h.free hparent)).congr hfirst hlinks
  refine ⟨hrings.mono fun d hd => hstate ▸ hd, fun q d => ?_, fun q d hd => ?_, by rw [hstate]; exact h.init⟩
  · rw [mem_append_kids, h.mem, hparent']
    rcases eq_or_ne d c with rfl | hdc
    · rw [update_self, hparent, Option.some_inj]
      exact ⟨fun hd => (hd.resolve_left nofun).2.symm, fun hd => .inr ⟨rfl, hd.symm⟩⟩
    · rw [update_of_ne hdc]
      exact ⟨fun hd => hd.resolve_right fun h => hdc h.1, .inl⟩
  · rw [hparent'] at hd
    rw [hstate]
    rcases eq_or_ne d c with rfl | hdc
    · rw [update_self] at hd
      cases hd
      exact ⟨hc, hp⟩
    · rw [update_of_ne hdc] at hd
      exact h.used q d hd

/-- A child of `p` becomes a process that is no child. -/
theorem Family.delete (h : Family s kids) (hparent : s.parent c = some p)
    (hfirst : s'.first_child = (s.deleteChild p c).first_child)
    (hlinks : s'.sibling_list = (s.deleteChild p c).sibling_list) (hstate : s'.state = s.state)
    (hparent' : s'.parent = update s.parent c none) :
    Family s' (update kids p ((kids p).erase c)) := by
  have hc : c ∈ kids p := (h.mem p c).mpr hparent
  have hrings := (h.rings.deleteChild hc).congr hfirst hlinks
  refine ⟨hrings.mono fun d hd => hstate ▸ hd, fun q d => ?_, fun q d hd => ?_, by rw [hstate]; exact h.init⟩
  · rw [mem_erase_kids h.rings hc, h.mem, hparent']
    rcases eq_or_ne d c with rfl | hdc
    · rw [update_self]
      exact ⟨fun hd => absurd rfl hd.2, nofun⟩
    · rw [update_of_ne hdc]
      exact ⟨And.left, fun hd => ⟨hd, hdc⟩⟩
  · rw [hparent'] at hd
    rw [hstate]
    rcases eq_or_ne d c with rfl | hdc
    · rw [update_self] at hd
      cases hd
    · rw [update_of_ne hdc] at hd
      exact h.used q d hd

/-- The first child of `p` goes to the end of the children of `initproc`. -/
theorem Family.adopt (h : Family s kids) (hp : p ≠ initproc) (hkids : kids p = c :: l) :
    Family (s.adopt p c) (update (update kids p l) initproc (kids initproc ++ [c])) := by
  have hparent : s.parent c = some p := (h.mem p c).mp (hkids ▸ List.mem_cons_self)
  obtain ⟨hstate₁, hparent₁⟩ := deleteChild_frame s p c
  -- between the two lists the process is no child
  have hdeleted : Family ((s.deleteChild p c).setParent c none) (update kids p ((kids p).erase c)) :=
    h.delete hparent rfl rfl hstate₁ (congrArg (fun f : Nat → Option Nat => update f c none) hparent₁)
  obtain ⟨hfirst₂, hlinks₂⟩ := appendChild_of_eq (s := (s.deleteChild p c).setParent c none) (t := s.deleteChild p c)
    (p := initproc) (c := c) rfl rfl
  obtain ⟨hstate₂, hparent₂⟩ := appendChild_frame (s.deleteChild p c) initproc c
  have halloc : s.state c ≠ .PCB_UNUSED := (h.used p c hparent).1
  have hnone : ((s.deleteChild p c).setParent c none).parent c = none := update_self ..
  have hadopted : Family (s.adopt p c) (update (update kids p ((kids p).erase c)) initproc
      (update kids p ((kids p).erase c) initproc ++ [c])) := hdeleted.append hdeleted.init
    (by rw [show ((s.deleteChild p c).setParent c none).state = s.state from hstate₁]; exact halloc) hnone hfirst₂ hlinks₂
    hstate₂ (by
      show update ((s.deleteChild p c).appendChild initproc c).parent c (some initproc) = _
      rw [hparent₂]
      exact (update_idem ..).symm)
  rw [hkids, List.erase_cons_head] at hadopted
  rw [update_of_ne hp.symm] at hadopted
  exact hadopted

theorem state_adopt (s : Tree) (p c : Nat) : (s.adopt p c).state = s.state :=
  (appendChild_frame (s.deleteChild p c) initproc c).1.trans (deleteChild_frame s p c).1

/-- The lists after all children of `p` have gone to `initproc`. -/
structure Moved (kids kids' : Nat → List Nat) (p : Nat) : Prop where
  gone : kids' p = []
  there : kids' initproc = kids initproc ++ kids p
  others : ∀ q, q ≠ p → q ≠ initproc → kids' q = kids q

/-- The loop of `reparent` comes to its end; the induction is on the children that are left. -/
theorem Family.reparentLoop (hp : p ≠ initproc) {first : Nat} {flag : Bool} (h : Family s kids) (hkids : kids p = c :: l)
    (hflag : flag = true ∨ c ≠ first) (hfirst : first ∉ l) :
    ∀ fuel, l.length < fuel → ∃ s' kids', Tree.reparentLoop p first fuel s c (s.sibling_list.next c) flag = some s' ∧
      Family s' kids' ∧ s'.state = s.state ∧ Moved kids kids' p := by
  induction l generalizing s kids c flag with
  | nil =>
    intro fuel hfuel
    obtain ⟨fuel, rfl⟩ := Nat.exists_eq_add_one_of_ne_zero (Nat.ne_of_gt hfuel)
    have hadopted := h.adopt hp hkids
    have hempty : (s.adopt p c).first_child p = none := by
      rw [hadopted.rings.first p, update_of_ne hp, update_self]
      rfl
    refine ⟨s.adopt p c, _, ?_, hadopted, state_adopt s p c, ?_, ?_, fun q hq hq' => ?_⟩
    · unfold Tree.reparentLoop
      rw [if_pos hflag]
      exact if_pos hempty
    · rw [update_of_ne hp, update_self]
    · rw [update_self, hkids]
    · rw [update_of_ne hq', update_of_ne hq]
  | cons y l ih =>
    intro fuel hfuel
    obtain ⟨fuel, rfl⟩ := Nat.exists_eq_add_one_of_ne_zero (Nat.ne_of_gt (Nat.zero_lt_of_lt hfuel))
    have hadopted := h.adopt hp hkids
    have hkids' : update (update kids p (y :: l)) initproc (kids initproc ++ [c]) p = y :: l := by
      rw [update_of_ne hp, update_self]
    have hnonempty : (s.adopt p c).first_child p ≠ none := by
      rw [hadopted.rings.first p, hkids']
      nofun
    have hnext : s.sibling_list.next c = y := (h.rings.ring p c (y :: l) hkids).1.1.1
    have hne : y ≠ first := fun heq => hfirst (heq ▸ List.mem_cons_self)
    -- the next child was read while the ring was whole, and is the first one now
    obtain ⟨s', kids', hloop, hfamily, hstate, hmoved⟩ :=
      ih hadopted hkids' (.inr hne) (List.not_mem_of_not_mem_cons hfirst) fuel (Nat.lt_of_succ_lt_succ hfuel)
    refine ⟨s', kids', ?_, hfamily, hstate.trans (state_adopt s p c), hmoved.gone, ?_, fun q hq hq' => ?_⟩
    · unfold Tree.reparentLoop
      rw [if_pos hflag, hnext]
      show (if (s.adopt p c).first_child p = none then _ else _) = _
      rw [if_neg hnonempty]
      exact hloop
    · rw [hmoved.there, hkids', update_self, hkids, List.append_assoc]
      rfl
    · rw [hmoved.others q hq hq', update_of_ne hq', update_of_ne hq]

theorem Family.reparent (h : Family s kids) (hp : p ≠ initproc) :
    ∀ fuel, (kids p).length < fuel → ∃ s' kids', s.reparent fuel p = some s' ∧ Family s' kids' ∧ s'.state = s.state ∧
      Moved kids kids' p := by
  intro fuel hfuel
  unfold Tree.reparent
  rw [h.rings.first p]
  cases hkids : kids p with
  | nil =>
    refine ⟨s, kids, rfl, h, rfl, hkids, ?_, fun _ _ _ => rfl⟩
    rw [hkids, List.append_nil]
  | cons c l =>
    have hnodup := hkids ▸ h.rings.nodup p
    rw [hkids] at hfuel
    exact h.reparentLoop hp hkids (.inl rfl) (List.nodup_cons.mp hnodup).1 fuel (Nat.lt_of_succ_lt hfuel)

theorem reparentLoop_mono {first : Nat} {fuel : Nat} (more : Nat) : ∀ {s : Tree} {pos n : Nat} {flag : Bool},
    Tree.reparentLoop p first fuel s pos n flag = some s' →
      Tree.reparentLoop p first (fuel + more) s pos n flag = some s' := by
  induction fuel with
  | zero => exact nofun
  | succ fuel ih =>
    intro s pos n flag h
    rw [Nat.succ_add]
    unfold Tree.reparentLoop at h ⊢
    split at h
    next hgo =>
      rw [if_pos hgo]
      dsimp only at h ⊢
      split at h
      next hempty =>
        rw [if_pos hempty]
        exact h
      next hempty =>
        rw [if_neg hempty]
        exact ih h
    next hend =>
      rw [if_neg hend]
      exact h

theorem reparent_unique {s₁ s₂ : Tree} {n m : Nat} (h₁ : s.reparent n p = some s₁) (h₂ : s.reparent m p = some s₂) :
    s₁ = s₂ := by
  unfold Tree.reparent at h₁ h₂
  split at h₁
  next hnone =>
    rw [hnone] at h₂
    exact Option.some.inj (h₁.symm.trans h₂)
  next first hsome =>
    rw [hsome] at h₂
    have hlong := reparentLoop_mono m h₁
    rw [Nat.add_comm] at hlong
    exact Option.some.inj (hlong.symm.trans (reparentLoop_mono n h₂))

theorem Moved.adopted (hmoved : Moved kids kids' p) (h : Family s kids) (h' : Family s' kids') (hp : p ≠ initproc) :
    Adopted s s' p := by
  refine ⟨?_, fun c => ?_, h'.law⟩
  · rw [h'.rings.first p, hmoved.gone]
    rfl
  have hmem : ∀ q, c ∈ kids q → c ∈ kids' (if q = p then initproc else q) := by
    intro q hq
    split
    next heq =>
      rw [hmoved.there, ← heq]
      exact List.mem_append_right _ hq
    next hne =>
      rcases eq_or_ne q initproc with rfl | hinit
      · rw [hmoved.there]
        exact List.mem_append_left _ hq
      · rw [hmoved.others q hne hinit]
        exact hq
  have hback : ∀ q, c ∈ kids' q → ∃ r, c ∈ kids r := by
    intro q hq
    rcases eq_or_ne q p with rfl | hne
    · rw [hmoved.gone] at hq
      cases hq
    rcases eq_or_ne q initproc with rfl | hinit
    · rw [hmoved.there] at hq
      rcases List.mem_append.mp hq with hq | hq
      · exact ⟨_, hq⟩
      · exact ⟨_, hq⟩
    · rw [hmoved.others q hne hinit] at hq
      exact ⟨q, hq⟩
  cases hparent : s.parent c with
  | none =>
    rw [if_neg nofun]
    cases hparent' : s'.parent c with
    | none => rfl
    | some q =>
      obtain ⟨r, hr⟩ := hback q ((h'.mem q c).mpr hparent')
      exact absurd hr (h.free hparent r)
  | some q =>
    have hnow := (h'.mem _ c).mp (hmem q ((h.mem q c).mpr hparent))
    rw [hnow]
    rcases eq_or_ne q p with rfl | hne
    · rw [if_pos rfl, if_pos rfl]
    · rw [if_neg hne, if_neg fun heq => hne (Option.some.inj heq)]

theorem Family.reparented {fuel : Nat} (h : Family s kids) (hp : p ≠ initproc) (hcall : s.reparent fuel p = some s') :
    ∃ kids', Family s' kids' ∧ s'.state = s.state ∧ Moved kids kids' p := by
  obtain ⟨t, kids', hcall', hfamily, hstate, hmoved⟩ := h.reparent hp _ (Nat.lt_succ_self _)
  obtain rfl := reparent_unique hcall hcall'
  exact ⟨kids', hfamily, hstate, hmoved⟩

/-! ## Steps -/

/-- A slot is taken. -/
theorem Family.alloc_proc (h : Family s kids) (hunused : s.state p = .PCB_UNUSED) :
    Family (s.alloc_proc p) kids ∧ (s.alloc_proc p).parent p = none := by
  have hparent : s.parent p = none := by
    cases hparent : s.parent p with
    | none => rfl
    | some q => exact absurd hunused (h.used q p hparent).1
  have hkids : kids p = [] := h.childless (by rw [hunused]; nofun)
  have hfree := h.free hparent
  refine ⟨⟨⟨fun q => ?_, fun q c l hl => ?_, h.rings.disjoint, fun c hc hcfree => ?_⟩, h.mem, fun q c hc => ?_, ?_⟩, hparent⟩
  · show update s.first_child p none q = _
    rcases eq_or_ne q p with rfl | hq
    · rw [update_self, hkids]
      rfl
    · rw [update_of_ne hq]
      exact h.rings.first q
  · exact (h.rings.ring q c l hl).init_other (hl ▸ hfree q)
  · rcases eq_or_ne c p with rfl | hcp
    · exact Links.ring_init _ _
    have halloc : s.state c ≠ .PCB_UNUSED := by
      intro heq
      apply hc
      show update s.state p .PCB_USED c = _
      rw [update_of_ne hcp]
      exact heq
    refine (h.rings.alone c halloc hcfree).init_other ?_
    rw [List.mem_singleton]
    exact hcp.symm
  · have hcp : c ≠ p := by
      rintro rfl
      rw [show (s.alloc_proc c).parent c = s.parent c from rfl, hparent] at hc
      cases hc
    have hqp : q ≠ p := by
      rintro rfl
      exact absurd ((h.used q c hc).2.symm.trans hunused) nofun
    show update s.state p .PCB_USED c ≠ _ ∧ update s.state p .PCB_USED q = _
    rw [update_of_ne hcp, update_of_ne hqp]
    exact h.used q c hc
  · show update s.state p .PCB_USED initproc = _
    rcases eq_or_ne initproc p with rfl | hne
    · rw [update_self]
    · rw [update_of_ne hne]
      exact h.init

/-- A process that is neither parent nor child changes its state. -/
theorem Family.setState (h : Family s kids) (hkids : kids p = []) (hp : p ≠ initproc)
    (hst : st = .PCB_UNUSED → s.parent p = none) (halloc : s.state p ≠ .PCB_UNUSED) : Family (s.setState p st) kids := by
  refine ⟨⟨h.rings.first, h.rings.ring, h.rings.disjoint, fun c hc hfree => h.rings.alone c ?_ hfree⟩, h.mem,
    fun q c hc => ?_, ?_⟩
  · rcases eq_or_ne c p with rfl | hcp
    · exact halloc
    · have hst' : (s.setState p st).state c = s.state c := update_of_ne hcp ..
      rw [hst'] at hc
      exact hc
  · have hqp : q ≠ p := by
      rintro rfl
      have hin := (h.mem q c).mpr hc
      rw [hkids] at hin
      cases hin
    obtain ⟨hc', hq'⟩ := h.used q c hc
    show update s.state p st c ≠ _ ∧ update s.state p st q = _
    rw [update_of_ne hqp]
    refine ⟨?_, hq'⟩
    rcases eq_or_ne c p with rfl | hcp
    · rw [update_self]
      intro heq
      rw [show (s.setState c st).parent c = s.parent c from rfl, hst heq] at hc
      cases hc
    · rw [update_of_ne hcp]
      exact hc'
  · show update s.state p st initproc = _
    rw [update_of_ne hp.symm]
    exact h.init

end Families

section Runs

variable {s s' : Tree} {kids : Nat → List Nat} {e : Event} {p c : Nat}

theorem family_boot (k : Links Nat) : Family (boot k) fun _ => [] := by
  refine ⟨⟨fun _ => rfl, nofun, nofun, fun c hc _ => ?_⟩, fun p c => ⟨nofun, nofun⟩, nofun, ?_⟩
  · rcases eq_or_ne c initproc with rfl | hne
    · exact Links.ring_init _ _
    · have hunused : update (fun _ => procstate.PCB_UNUSED) initproc .PCB_USED c = .PCB_UNUSED := by
        rw [update_of_ne hne]
      exact absurd hunused hc
  · show update (fun _ => procstate.PCB_UNUSED) initproc .PCB_USED initproc = _
    rw [update_self]

theorem reap_eq (s : Tree) (p c : Nat) :
    s.reap p c = ((s.setParent c none).deleteChild p c).setState c .PCB_UNUSED := by
  obtain ⟨hstate, hparent⟩ := deleteChild_frame ((s.setParent c none).setState c .PCB_UNUSED) p c
  obtain ⟨hstate', hparent'⟩ := deleteChild_frame (s.setParent c none) p c
  obtain ⟨hfirst, hlinks⟩ := deleteChild_of_eq (s := s.setParent c none) (p := p) (c := c)
    (t := (s.setParent c none).setState c .PCB_UNUSED) rfl rfl
  refine Tree.ext ?_ (hparent.trans hparent'.symm) hfirst hlinks
  show _ = update ((s.setParent c none).deleteChild p c).state c .PCB_UNUSED
  rw [hstate']
  exact hstate

theorem Family.step (h : Family s kids) (hstep : Step s e s') : ∃ kids', Family s' kids' := by
  cases e with
  | appendChild p c =>
    obtain ⟨hp, hc, hparent, rfl⟩ := hstep
    obtain ⟨hstate, hparent'⟩ := appendChild_frame (s.setParent c (some p)) p c
    obtain ⟨hfirst, hlinks⟩ := appendChild_of_eq (s := s) (t := s.setParent c (some p)) (p := p) (c := c) rfl rfl
    exact ⟨_, h.append hp hc hparent hfirst hlinks hstate hparent'⟩
  | deleteChild p c =>
    obtain ⟨hparent, rfl⟩ := hstep
    obtain ⟨hstate, hparent'⟩ := deleteChild_frame (s.setParent c none) p c
    obtain ⟨hfirst, hlinks⟩ := deleteChild_of_eq (s := s) (t := s.setParent c none) (p := p) (c := c) rfl rfl
    exact ⟨_, h.delete hparent hfirst hlinks hstate hparent'⟩
  | alloc_proc p =>
    obtain ⟨hunused, rfl⟩ := hstep
    exact ⟨_, (h.alloc_proc hunused).1⟩
  | do_clone p np =>
    obtain ⟨hp, hunused, rfl⟩ := hstep
    obtain ⟨halloc, hparent⟩ := h.alloc_proc hunused
    have hne : p ≠ np := by
      rintro rfl
      exact absurd (hp.symm.trans hunused) nofun
    obtain ⟨hstate, hparent'⟩ := appendChild_frame ((s.alloc_proc np).setParent np (some p)) p np
    obtain ⟨hfirst, hlinks⟩ :=
      appendChild_of_eq (s := s.alloc_proc np) (t := (s.alloc_proc np).setParent np (some p)) (p := p) (c := np) rfl rfl
    have hused : (s.alloc_proc np).state p = .PCB_USED := (update_of_ne hne ..).trans hp
    have hnew : (s.alloc_proc np).state np ≠ .PCB_UNUSED := by
      rw [show (s.alloc_proc np).state np = .PCB_USED from update_self ..]
      nofun
    exact ⟨_, halloc.append hused hnew hparent hfirst hlinks hstate hparent'⟩
  | waitpid p c =>
    obtain ⟨hparent, hzombie, rfl⟩ := hstep
    have hne : c ≠ p := by
      rintro rfl
      exact absurd (hzombie.symm.trans (h.used c c hparent).2) nofun
    have hinit : c ≠ initproc := by
      rintro rfl
      exact absurd (hzombie.symm.trans h.init) nofun
    have hkids : kids c = [] := h.childless (by rw [hzombie]; nofun)
    obtain ⟨hstate, hparent'⟩ := deleteChild_frame (s.setParent c none) p c
    obtain ⟨hfirst, hlinks⟩ := deleteChild_of_eq (s := s) (t := s.setParent c none) (p := p) (c := c) rfl rfl
    have hdeleted := h.delete hparent hfirst hlinks hstate hparent'
    rw [reap_eq]
    refine ⟨_, hdeleted.setState ?_ hinit (fun _ => ?_) ?_⟩
    · rw [update_of_ne hne]
      exact hkids
    · rw [hparent']
      exact update_self ..
    · rw [show ((s.setParent c none).deleteChild p c).state c = s.state c from congrFun hstate c, hzombie]
      nofun
  | reparent p =>
    obtain ⟨hp, fuel, hcall⟩ := hstep
    obtain ⟨kids', hfamily, -, -⟩ := h.reparented hp hcall
    exact ⟨kids', hfamily⟩
  | exit_process p =>
    obtain ⟨hp, hused, fuel, t, hcall, rfl⟩ := hstep
    obtain ⟨kids', hfamily, hstate, hmoved⟩ := h.reparented hp hcall
    refine ⟨kids', hfamily.setState hmoved.gone hp nofun ?_⟩
    rw [hstate, hused]
    nofun

/-- **The process tree.** In every state reached the ring of every process enumerates its children, each once,
and `reparent` of any process but `initproc` ends with all of its children, and no others, gone to `initproc`. -/
theorem process_tree {k : Links Nat} {es : List Event} (hrun : Run Step (boot k) es s) :
    Law s ∧ ∀ p, p ≠ initproc → ∃ n s', Adopted s s' p ∧ ∀ fuel, n ≤ fuel → s.reparent fuel p = some s' := by
  have hkept : ∀ s e s', (∃ kids, Family s kids) → Step s e s' → ∃ kids, Family s' kids :=
    fun s e s' ⟨kids, h⟩ hstep => h.step hstep
  obtain ⟨kids, h⟩ := Run.invariant hkept hrun ⟨_, family_boot k⟩
  refine ⟨h.law, fun p hp => ?_⟩
  obtain ⟨s', kids', hcall, hfamily, -, hmoved⟩ := h.reparent hp _ (Nat.lt_succ_self _)
  refine ⟨(kids p).length + 1, s', hmoved.adopted h hfamily hp, fun fuel hfuel => ?_⟩
  obtain ⟨t, -, hcall', -⟩ := h.reparent hp fuel hfuel
  rw [hcall', reparent_unique hcall hcall']

/-- The first process has two children, and the first of them has one. -/
theorem process_tree_clones : ∃ s, Run Step (boot ⟨id, id⟩) [.do_clone 0 1, .do_clone 0 2, .do_clone 1 3] s ∧
    Law s ∧ ∀ p, p ≠ initproc → ∃ n s', Adopted s s' p ∧ ∀ fuel, n ≤ fuel → s.reparent fuel p = some s' := by
  have hrun : Run Step (boot ⟨id, id⟩) [.do_clone 0 1, .do_clone 0 2, .do_clone 1 3] _ :=
    .cons ⟨by decide, by decide, rfl⟩ (.cons ⟨by decide, by decide, rfl⟩ (.cons ⟨by decide, by decide, rfl⟩ (.nil _)))
  exact ⟨_, hrun, process_tree hrun⟩

end Runs

end LostWakeup.Process.Siblings
