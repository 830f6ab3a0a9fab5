/-
# LostWakeup.Fs.Fat32.ReadFrame — what a read does to the clusters of its file.

A miss reads its pages in batches, and each batch goes through `block_full_pages` to `fat32_cursor_to_offset`.  That
function is not told whether it may allocate, and takes clusters until the chain has the one it has been asked for.
-/
import LostWakeup.Fs.ReadAhead
import LostWakeup.Fs.Fat32.BlockMap

namespace LostWakeup.Fs.Fat32.ReadFrame

open Library
open Fs.Fat32.Bitmap (Sb)
open Fs.Fat32.IndexTable (inode fat32_ctl_index_table get_index_val)
open Fs.Fat32.Trunc (ctl growChain fat32_cursor_to_offset ok_of_mapError)
open Fs.Fat32.BlockMap
open Fs.Mpage (Tree Memory Pages Batch GapAt batch_index_iff)
open Fs.ReadAhead (Call Mapping Reading Event Misses read_sane_cnt turn turns start emptyMapping freeMemory)

/-! ## The code -/

/-- The clusters of an inode, and the super block. -/
structure Disk where
  ip : inode
  sb : Sb

inductive Panic
  | pages (e : Mpage.Panic)
  | block (e : BlockMap.Panic)
  | read (e : ReadAhead.Panic)

section Code

variable (v : Volume) (fuel : Nat)

/-- `fat32_rw_pages`: the vectors that `submit_bio` gets. -/
def fat32_rw_pages (alloc : Bool) (b : Batch) (d : Disk) : Except Panic (Disk × List bio_vec) :=
  match block_full_pages v fuel d.ip d.sb (b.src * BlockMap.PGSIZE) b.index b.cnt alloc with
  | .error e => .error (.block e)
  | .ok (ip, sb, vecs) => .ok (⟨ip, sb⟩, vecs)

/-- The batches of `fat32_rw_pages_batch`, one after the other. -/
def transfer (alloc : Bool) : List Batch → Disk → Except Panic (Disk × List (List bio_vec))
  | [], d => .ok (d, [])
  | b :: batches, d =>
    match fat32_rw_pages v fuel alloc b d with
    | .error e => .error e
    | .ok (d, vecs) =>
      match transfer alloc batches d with
      | .error e => .error e
      | .ok (d, bios) => .ok (d, vecs :: bios)

/-- `mpage_readpages`, with the transfers at its end. -/
def mpage_readpages (mem : Memory) (index cnt : Nat) (read_from_disk alloc : Bool) (page_tree : Tree) (nrpages : Nat) (d : Disk) :
    Except Panic (Pages × Disk × List (List bio_vec)) :=
  match Mpage.mpage_readpages mem index cnt read_from_disk page_tree nrpages with
  | .error e => .error (.pages e)
  | .ok r =>
    match transfer v fuel alloc r.batches d with
    | .error e => .error e
    | .ok (d, bios) => .ok (r, d, bios)

/-- The batches of the miss that a turn comes to. -/
def issued (c : Call) (e : Event) (s : Reading) : List Batch :=
  if s.index ≤ c.end_index ∧ s.offset < c.nr s ∧ s.page_tree s.index = none ∧ 0 < read_sane_cnt c e s then
    match Mpage.mpage_readpages e.mem s.index (read_sane_cnt c e s) true s.page_tree s.nrpages with
    | .ok r => r.batches
    | .error _ => []
  else []

/-- A turn of `do_generic_file_read` and what its miss does to the clusters. -/
def readTurn (c : Call) (e : Event) (s : Reading) (d : Disk) : Except Panic (Bool × Reading × Disk) :=
  match transfer v fuel false (issued c e s) d with
  | .error p => .error p
  | .ok (d, _) =>
    match turn c e s with
    | .error p => .error (.read p)
    | .ok (more, s) => .ok (more, s, d)

/-- The loop, for as many turns as there are events. -/
def readLoop (c : Call) : List Event → Reading → Disk → Except Panic (Reading × Disk)
  | [], s, d => .ok (s, d)
  | e :: es, s, d =>
    match readTurn v fuel c e s d with
    | .error p => .error p
    | .ok (more, s, d) => if more then readLoop c es s d else .ok (s, d)

/-- The arguments of `fat32_inode_read`, and the fields of the inode that it reads first. -/
structure Request where
  i_size : Nat
  i_mapping : Option Mapping
  off : Nat
  n : Nat
  size_lt : i_size < 2 ^ 32
  off_lt : off < 2 ^ 32
  n_lt : n < 2 ^ 32

/-- The number of bytes that is left of `n` inside the file. -/
def Request.clip (q : Request) : Nat :=
  if q.i_size < q.off ∨ (q.off + q.n) % 2 ^ 32 < q.off then 0
  else if q.i_size < q.off + q.n then q.i_size - q.off
  else q.n

theorem Request.clip_le (q : Request) : q.clip ≤ q.n ∧ q.clip ≤ q.i_size - q.off := by
  unfold Request.clip
  split
  · omega
  · split
    · omega
    · omega

/-- The call of `do_generic_file_read`. -/
def Request.call (q : Request) (h : 0 < q.clip) : Call where
  i_size := q.i_size
  off := q.off
  n := q.clip
  size_pos := by
    have := q.clip_le
    omega
  size_lt := q.size_lt
  n_lt := q.clip_le.1.trans_lt q.n_lt

/-- The mapping, after `fat32_i_mapping_init` if there is none. -/
def Request.mapping (q : Request) : Mapping := q.i_mapping.getD emptyMapping

/-- `fat32_inode_read`; nothing where it returns before the mapping is looked at. -/
def fat32_inode_read (q : Request) (es : List Event) (d : Disk) : Except Panic (Option Reading × Disk) :=
  if h : 0 < q.clip then
    match readLoop v fuel (q.call h) es (start (q.call h) q.mapping) d with
    | .error p => .error p
    | .ok (s, d) => .ok (some s, d)
  else .ok (none, d)

end Code

/-! ## The property -/

/-- The FAT, the bitmap, the count of free clusters and the chain of the inode are the same. -/
structure Unchanged (d d' : Disk) : Prop where
  fat_table : d'.sb.fat_table = d.sb.fat_table
  bit_map : d'.sb.bit_map = d.sb.bit_map
  free_count : d'.sb.free_count = d.sb.free_count
  cluster_cnt : d'.ip.cluster_cnt = d.ip.cluster_cnt
  cluster_end : d'.ip.cluster_end = d.ip.cluster_end

/-- The chain has the cluster that page `p` begins in, where the offset of the page is taken as a `uint`. -/
def Reached (v : Volume) (d : Disk) (p : Nat) : Prop := p * BlockMap.PGSIZE % 2 ^ 32 / v.cluster_size < d.ip.cluster_cnt

instance isDecidableReached (v : Volume) (d : Disk) (p : Nat) : Decidable (Reached v d p) := inferInstanceAs (Decidable (_ < _))

/-- The turns of a request, each with the call it belongs to. -/
def Request.turns (q : Request) (es : List Event) : List (Call × Event × Reading) :=
  if h : 0 < q.clip then (ReadAhead.turns (q.call h) es (start (q.call h) q.mapping)).map fun t => (q.call h, t) else []

/-! ## One transfer -/

theorem Unchanged.refl (d : Disk) : Unchanged d d := ⟨rfl, rfl, rfl, rfl, rfl⟩

theorem Unchanged.trans {d₁ d₂ d₃ : Disk} (h : Unchanged d₁ d₂) (h' : Unchanged d₂ d₃) : Unchanged d₁ d₃ :=
  ⟨h'.fat_table.trans h.fat_table, h'.bit_map.trans h.bit_map, h'.free_count.trans h.free_count,
    h'.cluster_cnt.trans h.cluster_cnt, h'.cluster_end.trans h.cluster_end⟩

theorem Unchanged.symm {d d' : Disk} (h : Unchanged d d') : Unchanged d' d :=
  ⟨h.fat_table.symm, h.bit_map.symm, h.free_count.symm, h.cluster_cnt.symm, h.cluster_end.symm⟩

theorem Unchanged.reached_iff {v : Volume} {d d' : Disk} (h : Unchanged d d') (p : Nat) : Reached v d' p ↔ Reached v d p := by
  rw [Reached, Reached, h.cluster_cnt]

theorem ctl_keeps {ip ip' : inode} {l_num cluster_num c : Nat} (h : ctl ip l_num cluster_num = .ok (ip', c)) :
    ip'.cluster_cnt = ip.cluster_cnt ∧ ip'.cluster_end = ip.cluster_end := by
  rw [ctl, fat32_ctl_index_table] at h
  split at h
  · cases h
  dsimp only at h
  split at h
  · cases h
    exact ⟨rfl, rfl⟩
  split at h
  · cases h
    exact ⟨rfl, rfl⟩
  · cases h

theorem growChain_cnt {M fuel turns c_start c : Nat} {ip ip' : inode} {sb sb' : Sb}
    (h : growChain M fuel turns c_start ip sb = .ok (ip', sb', c)) : ip'.cluster_cnt = ip.cluster_cnt + turns := by
  induction turns generalizing c_start ip sb with
  | zero =>
    cases h
    rfl
  | succ turns ih =>
    rw [growChain] at h
    obtain ⟨⟨sb₁, fat_new⟩, -, h⟩ := ok_of_bind h
    obtain ⟨sb₂, -, h⟩ := ok_of_bind h
    obtain ⟨⟨ip₁, c₁⟩, hctl, h⟩ := ok_of_bind h
    rw [ih h, (ctl_keeps hctl).1]
    dsimp only
    omega

section

variable {v : Volume} {fuel : Nat}

theorem cursor_moves {M cluster_size off c : Nat} {ip ip' : inode} {sb sb' : Sb}
    (h : fat32_cursor_to_offset M fuel cluster_size ip sb off = .ok (ip', sb', c)) :
    (off / cluster_size < ip.cluster_cnt → sb' = sb ∧ ip'.cluster_cnt = ip.cluster_cnt ∧ ip'.cluster_end = ip.cluster_end) ∧
      (ip.cluster_cnt ≤ off / cluster_size → ip.cluster_cnt < ip'.cluster_cnt) := by
  rw [fat32_cursor_to_offset] at h
  obtain ⟨⟨ip₁, c₁⟩, hctl, h⟩ := ok_of_bind h
  obtain ⟨hcnt, hend⟩ := ctl_keeps hctl
  dsimp only at h
  constructor
  · intro hin
    have hturns : off / cluster_size + 1 - ip₁.cluster_cnt = 0 := by omega
    rw [hturns] at h
    cases h
    exact ⟨rfl, hcnt, hend⟩
  · intro hout
    have hgrown := growChain_cnt h
    omega

theorem nextCluster_keeps {w : Walk} {ip' : inode} {sb' : Sb} {c : Nat} (h : nextCluster v fuel false w = .ok (ip', sb', c)) :
    sb' = w.sb ∧ ip'.cluster_cnt = w.ip.cluster_cnt ∧ ip'.cluster_end = w.ip.cluster_end := by
  rw [nextCluster] at h
  obtain ⟨⟨ip₁, next⟩, hctl, h⟩ := ok_of_bind h
  cases h
  exact ⟨rfl, ctl_keeps hctl⟩

theorem takeBlocks_keeps (tot_s_n : Nat) (w : Walk) : (takeBlocks v tot_s_n w).sb = w.sb ∧ (takeBlocks v tot_s_n w).ip = w.ip :=
  ⟨rfl, rfl⟩

theorem blockLoop_keeps {tot_s_n turns : Nat} {w w' : Walk} (h : blockLoop v fuel false tot_s_n turns w = .ok w') :
    w'.sb = w.sb ∧ w'.ip.cluster_cnt = w.ip.cluster_cnt ∧ w'.ip.cluster_end = w.ip.cluster_end := by
  induction turns generalizing w with
  | zero => cases h
  | succ turns ih =>
    obtain ⟨hsb, hip⟩ := @takeBlocks_keeps v tot_s_n w
    rw [blockLoop] at h
    split at h
    · cases h
      exact ⟨rfl, rfl, rfl⟩
    dsimp only at h
    split at h
    · rw [← Except.ok.inj h, hsb, hip]
      exact ⟨rfl, rfl, rfl⟩
    obtain ⟨⟨ip₁, sb₁, c₁⟩, hnext, h⟩ := ok_of_bind h
    obtain ⟨hsb₁, hcnt₁, hend₁⟩ := nextCluster_keeps (ok_of_mapError hnext)
    obtain ⟨hsb', hcnt', hend'⟩ := ih h
    rw [hsb, hip] at *
    exact ⟨hsb'.trans hsb₁, hcnt'.trans hcnt₁, hend'.trans hend₁⟩

/-- A transfer leaves the clusters if and only if the chain has its first one; otherwise the chain has grown. -/
theorem rw_pages_frame {b : Batch} {d d' : Disk} {vecs : List bio_vec} (h : fat32_rw_pages v fuel false b d = .ok (d', vecs)) :
    (Reached v d b.index → Unchanged d d') ∧ (¬Reached v d b.index → d.ip.cluster_cnt < d'.ip.cluster_cnt) := by
  rw [fat32_rw_pages] at h
  rcases hblock : block_full_pages v fuel d.ip d.sb (b.src * BlockMap.PGSIZE) b.index b.cnt false with e | ⟨ip, sb, vecs'⟩
  · rw [hblock] at h
    cases h
  rw [hblock] at h
  obtain ⟨rfl, -⟩ := Prod.mk.inj (Except.ok.inj h)
  rw [block_full_pages] at hblock
  obtain ⟨w, hget, hrest⟩ := ok_of_bind hblock
  have hno : ¬(false = true ∧ w.cur_s_n * v.sector_size % 2 ^ 32 ≠ b.cnt * BlockMap.PGSIZE % 2 ^ 32) := fun hbad =>
    Bool.noConfusion hbad.1
  rw [if_neg hno] at hrest
  cases hrest
  rw [fat32_get_block] at hget
  split at hget
  · cases hget
  obtain ⟨⟨ip₁, sb₁, c₁⟩, hcursor, hget⟩ := ok_of_bind hget
  dsimp only at hget
  split at hget
  · cases hget
  obtain ⟨hsb, hcnt, hend⟩ := blockLoop_keeps hget
  obtain ⟨hin, hout⟩ := cursor_moves (ok_of_mapError hcursor)
  dsimp only at hsb hcnt hend
  rw [Reached]
  constructor
  · intro hreached
    obtain ⟨hsb₁, hcnt₁, hend₁⟩ := hin hreached
    have hsame : w.sb = d.sb := hsb.trans hsb₁
    exact ⟨congrArg Sb.fat_table hsame, congrArg Sb.bit_map hsame, congrArg Sb.free_count hsame, hcnt.trans hcnt₁,
      hend.trans hend₁⟩
  · intro hbeyond
    have hgrown := hout (not_lt.mp hbeyond)
    dsimp only
    rw [hcnt]
    exact hgrown

/-- The transfers of a call, likewise: a chain that has grown does not shrink again. -/
theorem transfer_frame {batches : List Batch} {d d' : Disk} {bios : List (List bio_vec)}
    (h : transfer v fuel false batches d = .ok (d', bios)) :
    d.ip.cluster_cnt ≤ d'.ip.cluster_cnt ∧ (Unchanged d d' ↔ ∀ b ∈ batches, Reached v d b.index) := by
  induction batches generalizing d bios with
  | nil =>
    cases h
    exact ⟨le_refl _, fun _ b hb => absurd hb List.not_mem_nil, fun _ => Unchanged.refl _⟩
  | cons b batches ih =>
    rw [transfer] at h
    rcases hfirst : fat32_rw_pages v fuel false b d with e | ⟨d₁, vecs⟩
    · rw [hfirst] at h
      cases h
    rw [hfirst] at h
    dsimp only at h
    rcases hrest : transfer v fuel false batches d₁ with e | ⟨d₂, bios₂⟩
    · rw [hrest] at h
      cases h
    rw [hrest] at h
    obtain ⟨rfl, -⟩ := Prod.mk.inj (Except.ok.inj h)
    obtain ⟨hmono, hiff⟩ := ih hrest
    obtain ⟨hin, hout⟩ := rw_pages_frame hfirst
    by_cases hreached : Reached v d b.index
    · have hsame := hin hreached
      rw [hsame.cluster_cnt] at hmono
      refine ⟨hmono, ?_⟩
      rw [List.forall_mem_cons]
      constructor
      · intro hall
        refine ⟨hreached, fun b' hb' => ?_⟩
        rw [← hsame.reached_iff]
        exact hiff.mp (hsame.symm.trans hall) b' hb'
      rintro ⟨-, hall⟩
      refine hsame.trans (hiff.mpr fun b' hb' => ?_)
      rw [hsame.reached_iff]
      exact hall b' hb'
    · have hgrown := hout hreached
      refine ⟨by omega, fun hall => ?_, fun hall => absurd (hall b List.mem_cons_self) hreached⟩
      have := hall.cluster_cnt
      omega

theorem transfer_append {batches batches' : List Batch} {d d₁ d₂ : Disk} {bios bios' : List (List bio_vec)}
    (h : transfer v fuel false batches d = .ok (d₁, bios)) (h' : transfer v fuel false batches' d₁ = .ok (d₂, bios')) :
    transfer v fuel false (batches ++ batches') d = .ok (d₂, bios ++ bios') := by
  induction batches generalizing d bios with
  | nil =>
    cases h
    exact h'
  | cons b batches ih =>
    rw [List.cons_append, transfer]
    rw [transfer] at h
    rcases hfirst : fat32_rw_pages v fuel false b d with e | ⟨d', vecs⟩
    · rw [hfirst] at h
      cases h
    rw [hfirst] at h
    dsimp only at h ⊢
    rcases hrest : transfer v fuel false batches d' with e | ⟨d'', bios''⟩
    · rw [hrest] at h
      cases h
    rw [hrest] at h
    cases h
    rw [ih hrest]
    rfl

end

/-! ## The batches of a call -/

theorem first_of_ok {mem : Memory} {index cnt nrpages : Nat} {read_from_disk : Bool} {tree : Tree} {r : Pages}
    (hindex : index + cnt < 2 ^ 64)
    (h : Mpage.mpage_readpages mem index cnt read_from_disk tree nrpages = .ok r) : 0 < cnt ∧ tree index = none := by
  rw [Mpage.mpage_readpages] at h
  split at h
  · cases h
  · next hcnt =>
    have hpos : 0 < cnt := Nat.pos_of_ne_zero hcnt
    refine ⟨hpos, ?_⟩
    by_contra hcached
    have hzero : add64 index 0 = index := Nat.mod_eq_of_lt (by omega)
    rw [Mpage.scanLoop, if_pos hpos, hzero, if_neg hcached, if_pos rfl] at h
    cases h

/-- The batches begin where the gaps of the range do. -/
theorem batches_iff {mem : Memory} {index cnt nrpages : Nat} {read_from_disk : Bool} {tree : Tree} {r : Pages}
    (hsmall : cnt < 2 ^ 31) (hindex : index + cnt < 2 ^ 64)
    (h : Mpage.mpage_readpages mem index cnt read_from_disk tree nrpages = .ok r) (P : Nat → Prop) :
    (∀ b ∈ r.batches, P b.index) ↔ (read_from_disk = true → ∀ i, GapAt index cnt tree i → P (index + i)) := by
  obtain ⟨hpos, hfirst⟩ := first_of_ok hindex h
  cases read_from_disk with
  | false =>
    have hnone : r.batches = [] := by
      rw [Mpage.mpage_readpages, if_neg hpos.ne'] at h
      split at h
      · cases h
      · rw [← Except.ok.inj h]
        exact if_neg fun hbad => Bool.noConfusion hbad.2
    rw [hnone]
    exact ⟨fun _ hread => Bool.noConfusion hread, fun _ b hb => by cases hb⟩
  | true =>
    have hbegin := batch_index_iff hpos hindex.le hfirst (fun i hi _ => by omega) h
    constructor
    · intro hall _ i hgap
      obtain ⟨b, hb, heq⟩ := (hbegin (index + i)).mpr ⟨i, hgap, rfl⟩
      rw [← heq]
      exact hall b hb
    intro hall b hb
    obtain ⟨i, hgap, heq⟩ := (hbegin b.index).mp ⟨b, hb, rfl⟩
    rw [heq]
    exact hall rfl i hgap

/-! ## The turns of a read -/

section

variable {v : Volume} {fuel : Nat} {c : Call} {e : Event} {s : Reading}

/-- The batches of a miss, in a turn that has not panicked. -/
theorem issued_iff {s' : Reading} {more : Bool} (h : turn c e s = .ok (more, s')) (P : Nat → Prop) :
    (∀ b ∈ issued c e s, P b.index) ↔
      (Misses c s → ∀ i, GapAt s.index (read_sane_cnt c e s) s.page_tree i → P (s.index + i)) := by
  unfold issued
  split
  · next hmiss =>
    obtain ⟨hindex, hoffset, huncached, hpos⟩ := hmiss
    have hmisses : Misses c s := ⟨hindex, hoffset, huncached⟩
    have hlast := @ReadAhead.end_index_lt c
    have hcnt := @ReadAhead.read_sane_cnt_le c e s
    rcases hrun : Mpage.mpage_readpages e.mem s.index (read_sane_cnt c e s) true s.page_tree s.nrpages with p | r
    · rw [ReadAhead.turn_panics hmisses hpos hrun] at h
      cases h
    · dsimp only
      rw [batches_iff (by omega) (by omega) hrun P]
      exact ⟨fun hall _ => hall rfl, fun hall _ => hall hmisses⟩
  · next hno =>
    refine ⟨fun _ hmiss i hgap => ?_, fun _ b hb => by cases hb⟩
    have := hgap.lt
    exact absurd ⟨hmiss.index_le, hmiss.offset_lt, hmiss.uncached, by omega⟩ hno

/-- A read that has not panicked has made the transfers of its turns. -/
theorem readLoop_transfers {es : List Event} {s' : Reading} {d d' : Disk} (h : readLoop v fuel c es s d = .ok (s', d')) :
    (∃ bios, transfer v fuel false ((turns c es s).flatMap fun t => issued c t.1 t.2) d = .ok (d', bios)) ∧
      ∀ t ∈ turns c es s, ∃ more s₁, turn c t.1 t.2 = .ok (more, s₁) := by
  induction es generalizing s d with
  | nil =>
    cases h
    exact ⟨⟨[], rfl⟩, fun t ht => by cases ht⟩
  | cons e es ih =>
    rw [readLoop, readTurn] at h
    rcases hfirst : transfer v fuel false (issued c e s) d with p | ⟨d₁, bios⟩
    · rw [hfirst] at h
      cases h
    rw [hfirst] at h
    rcases hturn : turn c e s with p | ⟨more, s₁⟩
    · rw [hturn] at h
      cases h
    rw [hturn] at h
    dsimp only at h
    rw [turns, hturn, List.flatMap_cons]
    cases more with
    | false =>
      cases h
      refine ⟨⟨bios, ?_⟩, fun t ht => ?_⟩
      · rw [List.flatMap_nil, List.append_nil]
        exact hfirst
      · rw [List.mem_singleton.mp ht]
        exact ⟨false, s', hturn⟩
    | true =>
      obtain ⟨⟨bios', hrest⟩, hall⟩ := ih h
      refine ⟨⟨bios ++ bios', transfer_append hfirst hrest⟩, ?_⟩
      rw [List.forall_mem_cons]
      exact ⟨⟨true, s₁, hturn⟩, hall⟩

end

/-! ## The whole call -/

section

variable (v : Volume) (fuel : Nat)

/-- The chain has the first page of every gap that the misses of a read come to. -/
def ReachedAll (q : Request) (es : List Event) (d : Disk) : Prop :=
  ∀ t ∈ q.turns es, Misses t.1 t.2.2 →
    ∀ i, GapAt t.2.2.index (read_sane_cnt t.1 t.2.1 t.2.2) t.2.2.page_tree i → Reached v d (t.2.2.index + i)

theorem readpages_unchanged_iff {mem : Memory} {index cnt nrpages : Nat} {read_from_disk : Bool} {tree : Tree} {r : Pages} {d d' : Disk}
    {bios : List (List bio_vec)} (hsmall : cnt < 2 ^ 31) (hindex : index + cnt < 2 ^ 64)
    (h : mpage_readpages v fuel mem index cnt read_from_disk false tree nrpages d = .ok (r, d', bios)) :
    Unchanged d d' ↔ (read_from_disk = true → ∀ i, GapAt index cnt tree i → Reached v d (index + i)) := by
  rw [mpage_readpages] at h
  rcases hrun : Mpage.mpage_readpages mem index cnt read_from_disk tree nrpages with e | r₁
  · rw [hrun] at h
    cases h
  rw [hrun] at h
  dsimp only at h
  rcases htransfer : transfer v fuel false r₁.batches d with e | ⟨d₁, bios₁⟩
  · rw [htransfer] at h
    cases h
  · rw [htransfer] at h
    cases h
    rw [(transfer_frame htransfer).2, batches_iff hsmall hindex hrun (Reached v d)]

theorem inode_read_unchanged_iff {q : Request} {es : List Event} {d d' : Disk} {s : Option Reading}
    (h : fat32_inode_read v fuel q es d = .ok (s, d')) : Unchanged d d' ↔ ReachedAll v q es d := by
  unfold fat32_inode_read at h
  unfold ReachedAll Request.turns
  split at h
  · next hclip =>
    rw [dif_pos hclip]
    rcases hloop : readLoop v fuel (q.call hclip) es (start (q.call hclip) q.mapping) d with p | ⟨s₁, d₁⟩
    · rw [hloop] at h
      cases h
    rw [hloop] at h
    cases h
    obtain ⟨⟨bios, htransfer⟩, hturns⟩ := readLoop_transfers hloop
    rw [(transfer_frame htransfer).2, List.forall_mem_map]
    constructor
    · intro hall t ht
      obtain ⟨more, s₂, hturn⟩ := hturns t ht
      exact (issued_iff hturn _).mp fun b hb => hall b (List.mem_flatMap.mpr ⟨t, ht, hb⟩)
    intro hall b hb
    obtain ⟨t, ht, hb⟩ := List.mem_flatMap.mp hb
    obtain ⟨more, s₂, hturn⟩ := hturns t ht
    exact (issued_iff hturn _).mpr (hall t ht) b hb
  · next hclip =>
    rw [dif_neg hclip]
    cases h
    exact ⟨fun _ t ht => absurd ht List.not_mem_nil, fun _ => Unchanged.refl _⟩

/-- **Reads and clusters.**  A call that returns has left the FAT, the bitmap, the count of free clusters and the chain as they
were if and only if the chain has the cluster in which each gap begins that the call fills. -/
theorem reads_allocate_nothing_iff :
    (∀ mem index cnt read_from_disk tree nrpages d r d' bios, cnt < 2 ^ 31 → index + cnt < 2 ^ 64 →
      mpage_readpages v fuel mem index cnt read_from_disk false tree nrpages d = .ok (r, d', bios) →
      (Unchanged d d' ↔ (read_from_disk = true → ∀ i, GapAt index cnt tree i → Reached v d (index + i)))) ∧
    ∀ q es d s d', fat32_inode_read v fuel q es d = .ok (s, d') → (Unchanged d d' ↔ ReachedAll v q es d) :=
  ⟨fun _ _ _ _ _ _ _ _ _ _ hsmall hindex h => readpages_unchanged_iff v fuel hsmall hindex h,
    fun _ _ _ _ _ h => inode_read_unchanged_iff v fuel h⟩

end

/-- A file with one cluster, on a volume where cluster 3 is the first one that is free. -/
def oneCluster : Disk :=
  ⟨⟨2, 2, 1, tableOf [2]⟩, ⟨fun _ => 7, fun _ => IndexTable.EOC, 100, 3, true⟩⟩

/-- A byte of the file, behind a write at 20481, a truncation, which keeps the page, and a write at 20480. -/
def byteAt (off : Nat) (h : off < 2 ^ 32) : Request where
  i_size := 20481
  i_mapping := some ⟨fun p => if p = 5 then some 1000 else none, 1, 0, 0, 0⟩
  off := off
  n := 1
  size_lt := by decide
  off_lt := h
  n_lt := by decide

/-- **A read of a hole**: the third page of the file is 8 KiB away, and eight clusters are taken for it. -/
theorem hole_read_allocates : ∃ s d', fat32_inode_read smallVolume 5 (byteAt 8192 (by decide)) [freeMemory] oneCluster = .ok (s, d') ∧
    ¬Unchanged oneCluster d' := by
  have hrun : ((fat32_inode_read smallVolume 5 (byteAt 8192 (by decide)) [freeMemory] oneCluster).toOption.map
      fun r => r.2.ip.cluster_cnt) = some 9 := by decide +kernel
  obtain ⟨⟨s, d'⟩, hok, hcnt⟩ := Option.map_eq_some_iff.mp hrun
  refine ⟨s, d', ok_of_toOption hok, fun hsame => ?_⟩
  have := hsame.cluster_cnt.symm.trans hcnt
  exact absurd this (by decide)

theorem turns_one (c : Call) (e : Event) (s : Reading) : turns c [e] s = [(e, s)] := by
  rw [turns]
  split
  · rfl
  · rfl

theorem reachedAll_one {v : Volume} {q : Request} {e : Event} {d : Disk} (h : 0 < q.clip)
    (hall : ∀ i, GapAt (start (q.call h) q.mapping).index (read_sane_cnt (q.call h) e (start (q.call h) q.mapping)) q.mapping.page_tree i →
      Reached v d ((start (q.call h) q.mapping).index + i)) : ReachedAll v q [e] d := by
  intro t ht _
  rw [Request.turns, dif_pos h, turns_one, List.map_singleton, List.mem_singleton] at ht
  rw [ht]
  exact hall

theorem first_page_read_keeps :
    (∃ r d' bios, mpage_readpages smallVolume 0 Mpage.smallMemory 0 1 true false (fun _ => none) 0 oneCluster = .ok (r, d', bios) ∧
      Unchanged oneCluster d') ∧
    ∃ s d', fat32_inode_read smallVolume 0 (byteAt 0 (by decide)) [freeMemory] oneCluster = .ok (s, d') ∧ Unchanged oneCluster d' := by
  constructor
  · have hrun : (mpage_readpages smallVolume 0 Mpage.smallMemory 0 1 true false (fun _ => none) 0 oneCluster).toOption.isSome = true := by
      decide +kernel
    obtain ⟨⟨r, d', bios⟩, hok⟩ := Option.isSome_iff_exists.mp hrun
    refine ⟨r, d', bios, ok_of_toOption hok, ?_⟩
    refine ((reads_allocate_nothing_iff smallVolume 0).1 _ _ _ _ _ _ _ _ _ _ (by decide) (by decide) (ok_of_toOption hok)).mpr ?_
    intro _ i hgap
    obtain rfl : i = 0 := by
      have := hgap.lt
      omega
    decide +kernel
  · have hrun : (fat32_inode_read smallVolume 0 (byteAt 0 (by decide)) [freeMemory] oneCluster).toOption.isSome = true := by
      decide +kernel
    obtain ⟨⟨s, d'⟩, hok⟩ := Option.isSome_iff_exists.mp hrun
    refine ⟨s, d', ok_of_toOption hok, ?_⟩
    refine ((reads_allocate_nothing_iff smallVolume 0).2 _ _ _ _ _ (ok_of_toOption hok)).mpr ?_
    refine reachedAll_one (by decide) fun i hgap => ?_
    obtain rfl : i = 0 := by
      have hcnt : read_sane_cnt ((byteAt 0 (by decide)).call (by decide)) freeMemory
          (start ((byteAt 0 (by decide)).call (by decide)) (byteAt 0 (by decide)).mapping) = 1 := by decide +kernel
      have := hgap.lt
      omega
    decide +kernel

end LostWakeup.Fs.Fat32.ReadFrame
