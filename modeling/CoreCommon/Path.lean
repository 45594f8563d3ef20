import CoreCommon.Blocks
import CoreCommon.Fault

/-! Paths of several contours: `merge`, and the neighbours of a point in its contour. -/
namespace CoreCommon

/-- Points and where each contour starts in them; merging and walking use nothing else. -/
structure Path (α : Type) where
  points : List α
  parts : List UInt32

/-- `std::adjacent_find`: the index of the first of the pair, or the length. -/
def adjacentFind {α : Type} (p : α → α → Bool) : List α → ℕ
  | [] => 0
  | [_] => 1
  | x :: y :: l => if p x y then 0 else adjacentFind p (y :: l) + 1

namespace Path
variable {α : Type}

def merge (p other : Path α) : Path α where
  points := p.points ++ other.points
  parts :=
    if p.points ≠ [] then
      p.parts ++ other.parts.map fun s => s + UInt32.ofNat p.points.length
    else p.parts

def partIn (parts : List UInt32) (i : UInt32) : ℕ :=
  let k := adjacentFind (fun part₁ part₂ => part₁ ≤ i && i < part₂) parts
  if k = parts.length then k - 1 else k

/-- The part of a point, as an index into `parts`. -/
def part (p : Path α) (i : UInt32) : ℕ := partIn p.parts i

/-- `*part`. -/
def start (p : Path α) (k : ℕ) : Run UInt32 :=
  match p.parts[k]? with
  | some s => .ok s
  | none => .error .undefined

/-- `part==parts.end()-1 ? points.size() : *(part+1)`. -/
def stop (p : Path α) (k : ℕ) : Run ℕ :=
  if k + 1 = p.parts.length then .ok p.points.length
  else do
    let t ← p.start (k + 1)
    .ok t.toNat

def next (p : Path α) (k : ℕ) (i : UInt32) : Run UInt32 := do
  let t ← p.stop k
  if (i + 1).toNat = t then p.start k else .ok (i + 1)

def prev (p : Path α) (k : ℕ) (i : UInt32) : Run UInt32 := do
  let s ← p.start k
  if i = s then do
    let t ← p.stop k
    .ok (UInt32.ofNat t - 1)
  else .ok (i - 1)

/-! ### Contours -/

/-- The starts are increasing, from 0, and within the points. -/
structure Wf (p : Path α) : Prop where
  sorted : p.parts.Pairwise (· < ·)
  head : p.parts.head? = some 0
  within : p.points ≠ [] → ∀ s ∈ p.parts, s.toNat < p.points.length
  empty : p.points = [] → p.parts = [0]

def starts (p : Path α) : List ℕ := p.parts.map UInt32.toNat

def contours (p : Path α) : List Block := blocks p.points.length p.starts

/-- On the points of the contour, `next` and `prev` of their part go round it. -/
def Cycles (p : Path α) (c : Block) : Prop :=
  ∀ n, c.Has n → ∃ i j k : UInt32, i.toNat = n ∧ p.next (p.part i) i = .ok j ∧
    j.toNat = c.next n ∧ p.prev (p.part i) i = .ok k ∧ k.toNat = c.prev n

/-- The contours of two paths one after the other. -/
def mergedContours (a b : Path α) : List Block :=
  if a.points = [] then b.contours else a.contours ++ b.contours.map (Block.shift a.points.length)

/-- The contours of `p` are the given ones, which its neighbour functions go round. -/
structure HasContours (p : Path α) (l : List Block) : Prop where
  covers : ∀ n < p.points.length, ∃! c, c ∈ l ∧ c.Has n
  cycles : ∀ c ∈ l, p.Cycles c
  inverse : ∀ i j : UInt32, i.toNat < p.points.length → j.toNat < p.points.length →
    (p.next (p.part i) i = .ok j ↔ p.prev (p.part j) j = .ok i)

/-- `merge` keeps the points and the contours of both paths. -/
structure Merges (a b : Path α) : Prop where
  points_eq : (a.merge b).points = a.points ++ b.points
  contours : (a.merge b).HasContours (mergedContours a b)

/-! ### Walking a contour -/

lemma partIn_cons (s t : UInt32) (l : List UInt32) (i : UInt32) :
    partIn (s :: t :: l) i = if s ≤ i ∧ i < t then 0 else partIn (t :: l) i + 1 := by
  have hpos : 0 < (t :: l).length := Nat.succ_pos _
  unfold partIn
  rw [adjacentFind]
  by_cases h : s ≤ i ∧ i < t
  · simp [h]
  · rw [if_neg h]
    simp only [Bool.and_eq_true, decide_eq_true_eq, h, if_false, List.length_cons (a := s)]
    split_ifs <;> omega

/-- The part of a point of a block is the block's. -/
lemma partIn_spec {stop : ℕ} {l : List UInt32} (hl : (l.map UInt32.toNat).Pairwise (· ≤ ·))
    {c : Block} (hc : c ∈ blocks stop (l.map UInt32.toNat)) {i : UInt32} (hi : c.Has i.toNat) :
    (∃ s, l[partIn l i]? = some s ∧ s.toNat = c.start) ∧
      (partIn l i + 1 = l.length ∧ c.stop = stop ∨
        partIn l i + 1 ≠ l.length ∧ ∃ t, l[partIn l i + 1]? = some t ∧ t.toNat = c.stop) := by
  induction l with
  | nil => exact absurd hc List.not_mem_nil
  | cons s l ih =>
    cases l with
    | nil =>
      obtain rfl := List.mem_singleton.1 hc
      exact ⟨⟨s, rfl, rfl⟩, .inl ⟨rfl, rfl⟩⟩
    | cons t l =>
      obtain ⟨hle, htail⟩ := List.pairwise_cons.1 hl
      rw [partIn_cons]
      rcases List.mem_cons.1 hc with rfl | hc
      · rw [if_pos ⟨UInt32.le_iff_toNat_le.2 hi.1, UInt32.lt_iff_toNat_lt.2 hi.2⟩]
        exact ⟨⟨s, rfl, rfl⟩, .inr ⟨by simp, t, rfl, rfl⟩⟩
      · have hstart : t.toNat ≤ c.start := by
          rcases List.mem_cons.1 (start_mem_of_mem_blocks hc) with heq | hmem
          · exact heq.ge
          · exact (List.pairwise_cons.1 htail).1 _ hmem
        rw [if_neg fun h => Nat.not_lt_of_le (hstart.trans hi.1) (UInt32.lt_iff_toNat_lt.1 h.2)]
        obtain ⟨hs, hstop⟩ := ih htail hc
        refine ⟨hs, ?_⟩
        simpa only [List.length_cons, Nat.add_right_cancel_iff, ne_eq, List.getElem?_cons_succ]
          using hstop

/-- A point past every start is in the last part. -/
lemma partIn_last {l : List UInt32} {i : UInt32} (hl : ∀ s ∈ l, s ≤ i) :
    partIn l i = l.length - 1 := by
  induction l with
  | nil => rfl
  | cons s l ih =>
    cases l with
    | nil => rfl
    | cons t l =>
      have ht : ¬ i < t := UInt32.not_lt.2 (hl t (List.mem_cons_of_mem _ List.mem_cons_self))
      rw [partIn_cons, if_neg fun h => ht h.2, ih fun u hu => hl u (List.mem_cons_of_mem _ hu)]
      rfl

section walking
variable {p : Path α} {c : Block}

lemma start_eq_ok {k : ℕ} {s : UInt32} : p.start k = .ok s ↔ p.parts[k]? = some s := by
  unfold start
  cases p.parts[k]? <;> simp

lemma toNat_pred {n : ℕ} (hpos : 0 < n) (hn : n < 2 ^ 32) :
    (UInt32.ofNat n - 1).toNat = n - 1 := by
  have hi : (UInt32.ofNat n).toNat = n := UInt32.toNat_ofNat_of_lt' hn
  rw [UInt32.toNat_sub_of_le, hi]
  · rfl
  · rw [UInt32.le_iff_toNat_le, hi]
    exact hpos

/-- The block of a part, as the neighbour functions read it. -/
lemma part_spec (hp : p.starts.Pairwise (· ≤ ·)) (hc : c ∈ p.contours) {i : UInt32}
    (hi : c.Has i.toNat) : (∃ s, p.start (p.part i) = .ok s ∧ s.toNat = c.start) ∧
      p.stop (p.part i) = .ok c.stop := by
  obtain ⟨⟨s, hs, hstart⟩, hstop⟩ := partIn_spec hp hc hi
  refine ⟨⟨s, start_eq_ok.2 hs, hstart⟩, ?_⟩
  unfold stop
  rcases hstop with ⟨hlast, hstop⟩ | ⟨hlast, t, ht, hstop⟩
  · rw [part, if_pos hlast, hstop]
  · rw [part, if_neg hlast, start_eq_ok.2 ht, Run.bind_ok, hstop]

lemma stop_lt (hsize : p.points.length < 2 ^ 32) (hc : c ∈ p.contours) : c.stop < 2 ^ 32 := by
  rcases stop_mem_of_mem_blocks hc with hstop | hstop
  · exact hstop ▸ hsize
  · obtain ⟨t, -, ht⟩ := List.mem_map.1 hstop
    exact ht ▸ t.toNat_lt

/-- Non-decreasing starts of fewer than `2 ^ 32` points. -/
lemma cycles_of_sorted (hp : p.starts.Pairwise (· ≤ ·)) (hsize : p.points.length < 2 ^ 32)
    (hc : c ∈ p.contours) : p.Cycles c := by
  intro n hn
  have hstop := stop_lt hsize hc
  obtain ⟨hle, hlt⟩ := id hn
  have hi : (UInt32.ofNat n).toNat = n := UInt32.toNat_ofNat_of_lt' (hlt.trans hstop)
  have hsucc : (UInt32.ofNat n + 1).toNat = n + 1 := by
    rw [UInt32.toNat_add, hi]
    exact Nat.mod_eq_of_lt (Nat.lt_of_le_of_lt hlt hstop)
  obtain ⟨⟨s, hs, hstart⟩, ht⟩ := part_spec hp hc (by rwa [hi])
  have hnext : ∃ j, p.next (p.part (UInt32.ofNat n)) (UInt32.ofNat n) = .ok j ∧
      j.toNat = c.next n := by
    unfold next Block.next
    rw [ht, Run.bind_ok, hsucc]
    split_ifs with hend
    · exact ⟨s, hs, hstart⟩
    · exact ⟨_, rfl, hsucc⟩
  have hprev : ∃ k, p.prev (p.part (UInt32.ofNat n)) (UInt32.ofNat n) = .ok k ∧
      k.toNat = c.prev n := by
    have hfirst : UInt32.ofNat n = s ↔ n = c.start := by
      rw [← UInt32.toNat_inj, hi, hstart]
    unfold prev Block.prev
    rw [hs, Run.bind_ok, ht, Run.bind_ok]
    split_ifs with h₁ h₂ h₂
    · exact ⟨_, rfl, toNat_pred (Nat.zero_lt_of_lt hlt) hstop⟩
    · exact absurd (hfirst.1 h₁) h₂
    · exact absurd (hfirst.2 h₂) h₁
    · exact ⟨_, rfl, toNat_pred (by omega) (hlt.trans hstop)⟩
  obtain ⟨j, hj, hjn⟩ := hnext
  obtain ⟨k, hk, hkn⟩ := hprev
  exact ⟨_, j, k, hi, hj, hjn, hk, hkn⟩

/-- Functions that go round disjoint contours undo each other. -/
lemma inverse_of_cycles {l : List Block}
    (hcovers : ∀ n < p.points.length, ∃! c, c ∈ l ∧ c.Has n) (hcycles : ∀ c ∈ l, p.Cycles c)
    {i j : UInt32} (hi : i.toNat < p.points.length) (hj : j.toNat < p.points.length) :
    p.next (p.part i) i = .ok j ↔ p.prev (p.part j) j = .ok i := by
  -- where the two functions lead from a point
  have hwalk : ∀ i : UInt32, i.toNat < p.points.length → ∃ c ∈ l, c.Has i.toNat ∧
      ∃ j k : UInt32, p.next (p.part i) i = .ok j ∧ j.toNat = c.next i.toNat ∧
        p.prev (p.part i) i = .ok k ∧ k.toNat = c.prev i.toNat := by
    intro i hi
    obtain ⟨c, ⟨hc, hci⟩, -⟩ := hcovers _ hi
    obtain ⟨i', j, k, hi', h⟩ := hcycles c hc _ hci
    obtain rfl := UInt32.toNat_inj.1 hi'
    exact ⟨c, hc, hci, j, k, h⟩
  obtain ⟨c, hc, hci, j', -, hnext, hj', -⟩ := hwalk i hi
  obtain ⟨d, hd, hdj, -, i', -, -, hprev, hi'⟩ := hwalk j hj
  constructor
  · intro h
    obtain rfl := Except.ok.inj (hnext.symm.trans h)
    obtain rfl := (hcovers _ hj).unique ⟨hd, hdj⟩ ⟨hc, hj' ▸ hci.next⟩
    rw [hj', hci.prev_next] at hi'
    rw [hprev, UInt32.toNat_inj.1 hi']
  · intro h
    obtain rfl := Except.ok.inj (hprev.symm.trans h)
    obtain rfl := (hcovers _ hi).unique ⟨hc, hci⟩ ⟨hd, hi' ▸ hdj.prev⟩
    rw [hi', hdj.next_prev] at hj'
    rw [hnext, UInt32.toNat_inj.1 hj']

/-- A single contour may have all the points that a `GLuint` counts. -/
lemma cycles_all (hsize : p.points.length = 2 ^ 32) (hp : ∀ s ∈ p.parts, s = 0)
    (hne : p.parts ≠ []) : p.Cycles ⟨0, 2 ^ 32⟩ := by
  have hlen : 0 < p.parts.length := List.length_pos_iff.2 hne
  rintro n ⟨-, hn⟩
  have hi : (UInt32.ofNat n).toNat = n := UInt32.toNat_ofNat_of_lt' hn
  have hpart : p.part (UInt32.ofNat n) = p.parts.length - 1 :=
    partIn_last fun s hs => hp s hs ▸ UInt32.le_iff_toNat_le.2 (Nat.zero_le _)
  have hstop : p.stop (p.parts.length - 1) = .ok (2 ^ 32) := by
    rw [stop, if_pos (Nat.sub_add_cancel hlen), hsize]
  have hstart : p.start (p.parts.length - 1) = .ok 0 := by
    have hlt : p.parts.length - 1 < p.parts.length := by omega
    rw [start_eq_ok, List.getElem?_eq_getElem hlt, hp _ (List.getElem_mem hlt)]
  have hnext : (UInt32.ofNat n + 1).toNat = Block.next ⟨0, 2 ^ 32⟩ n := by
    rw [UInt32.toNat_add, hi, Block.next]
    show (n + 1) % 2 ^ 32 = if n + 1 = 2 ^ 32 then 0 else n + 1
    split_ifs with hend
    · rw [hend, Nat.mod_self]
    · exact Nat.mod_eq_of_lt (lt_of_le_of_ne hn hend)
  refine ⟨_, UInt32.ofNat n + 1, UInt32.ofNat n - 1, hi, ?_, hnext, ?_, ?_⟩
  · rw [next, hpart, hstop, Run.bind_ok, if_neg (UInt32.toNat_lt _).ne]
  · rw [prev, hpart, hstart, Run.bind_ok, hstop]
    split_ifs with hzero
    · rw [Run.bind_ok, hzero]
      rfl
    · rfl
  · rw [Block.prev]
    split_ifs with hzero
    · rw [hzero]
      rfl
    · exact toNat_pred (Nat.pos_of_ne_zero hzero) hn

end walking
/-! ### Merging -/

section merging
variable {a b p : Path α}

lemma Wf.sorted_starts (hp : p.Wf) : p.starts.Pairwise (· < ·) :=
  List.pairwise_map.2 (hp.sorted.imp UInt32.lt_iff_toNat_lt.1)

lemma Wf.exists_starts (hp : p.Wf) : ∃ l, p.starts = 0 :: l := by
  obtain ⟨t, ht⟩ := List.head?_eq_some_iff.1 hp.head
  exact ⟨t.map UInt32.toNat, by rw [starts, ht]; rfl⟩

lemma Wf.starts_le (hp : p.Wf) : ∀ s ∈ p.starts, s ≤ p.points.length := by
  intro s hs
  by_cases hpoints : p.points = []
  · rw [starts, hp.empty hpoints] at hs
    obtain rfl := List.mem_singleton.1 hs
    exact Nat.zero_le _
  · obtain ⟨t, ht, rfl⟩ := List.mem_map.1 hs
    exact (hp.within hpoints t ht).le

/-- What the neighbour functions do on a well-formed path by itself. -/
lemma Wf.hasContours (hp : p.Wf) (hsize : p.points.length < 2 ^ 32) : p.HasContours p.contours := by
  have hsorted := hp.sorted_starts.imp Nat.le_of_lt
  have hcycles : ∀ c ∈ p.contours, p.Cycles c := fun c => cycles_of_sorted hsorted hsize
  have hcovers : ∀ n < p.points.length, ∃! c, c ∈ p.contours ∧ c.Has n := by
    intro n hn
    obtain ⟨l, hl⟩ := hp.exists_starts
    rw [contours, hl]
    exact existsUnique_block (hl ▸ hsorted) hn
  exact ⟨hcovers, hcycles, fun i j => inverse_of_cycles hcovers hcycles⟩

/-- The starts after a merge into a path with points. -/
lemma starts_merge (hb : b.Wf) (ha : a.points ≠ [])
    (hsize : a.points.length + b.points.length < 2 ^ 32) :
    (a.merge b).starts = a.starts ++ b.starts.map (a.points.length + ·) := by
  have hshift : ∀ s ∈ b.parts,
      (s + UInt32.ofNat a.points.length).toNat = a.points.length + s.toNat := by
    intro s hs
    have hle := hb.starts_le _ (List.mem_map_of_mem hs)
    rw [UInt32.toNat_add, UInt32.toNat_ofNat_of_lt' (by show _ < 2 ^ 32; omega), Nat.add_comm]
    exact Nat.mod_eq_of_lt (by omega)
  rw [starts, merge, if_pos ha, List.map_append, starts, List.map_map, starts, List.map_map]
  exact congrArg _ (List.map_congr_left hshift)

/-- The merged contours are the blocks of all the starts. -/
lemma mergedContours_eq (hb : b.Wf) (ha : a.points ≠ []) :
    mergedContours a b = blocks (a.points.length + b.points.length)
      (a.starts ++ b.starts.map (a.points.length + ·)) := by
  obtain ⟨l, hl⟩ := hb.exists_starts
  have hmap : (0 :: l).map (a.points.length + ·) =
      a.points.length :: l.map (a.points.length + ·) := rfl
  rw [mergedContours, if_neg ha, contours, contours, hl, ← blocks_shift, hmap, blocks_append]

lemma sorted_append (ha : a.Wf) (hb : b.Wf) :
    (a.starts ++ b.starts.map (a.points.length + ·)).Pairwise (· ≤ ·) := by
  refine List.pairwise_append.2 ⟨ha.sorted_starts.imp Nat.le_of_lt, ?_, fun s hs t ht => ?_⟩
  · exact List.pairwise_map.2 (hb.sorted_starts.imp fun h => Nat.add_le_add_left h.le _)
  · obtain ⟨u, -, rfl⟩ := List.mem_map.1 ht
    exact (ha.starts_le s hs).trans (Nat.le_add_right _ _)

/-- Every point of the merged list is in one contour of the two paths. -/
lemma covers_merge (ha : a.Wf) (hb : b.Wf) {n : ℕ} (hn : n < (a.merge b).points.length) :
    ∃! c, c ∈ mergedContours a b ∧ c.Has n := by
  have hlen : (a.merge b).points.length = a.points.length + b.points.length :=
    List.length_append
  rw [hlen] at hn
  by_cases hempty : a.points = []
  · obtain ⟨l, hl⟩ := hb.exists_starts
    rw [mergedContours, if_pos hempty, contours, hl]
    rw [hempty, List.length_nil, Nat.zero_add] at hn
    exact existsUnique_block (hl ▸ hb.sorted_starts.imp Nat.le_of_lt) hn
  · obtain ⟨l, hl⟩ := ha.exists_starts
    have hsorted := sorted_append ha hb
    rw [mergedContours_eq hb hempty]
    rw [hl, List.cons_append] at hsorted ⊢
    exact existsUnique_block hsorted hn

/-- Merging is right once it goes round every contour. -/
lemma merges_of_cycles (ha : a.Wf) (hb : b.Wf)
    (hcycles : ∀ c ∈ mergedContours a b, (a.merge b).Cycles c) : Merges a b :=
  ⟨rfl, fun _ => covers_merge ha hb, hcycles,
    fun _ _ => inverse_of_cycles (fun _ => covers_merge ha hb) hcycles⟩

/-- Fewer points than a `GLuint` counts, or that many in one contour. -/
def Fits (a b : Path α) : Prop :=
  a.points.length + b.points.length < 2 ^ 32 ∨ a.points.length + b.points.length = 2 ^ 32 ∧
    (a.points = [] ∨ b.points = [] ∧ a.parts = [0])

lemma contours_of_parts (hp : p.parts = [0]) : p.contours = [⟨0, p.points.length⟩] := by
  rw [contours, starts, hp]
  rfl

/-- An empty receiver keeps its one part. -/
lemma merge_of_empty (ha : a.Wf) (hpoints : a.points = []) : a.merge b = ⟨b.points, [0]⟩ := by
  rw [merge, if_neg (not_not.2 hpoints), hpoints, ha.empty hpoints]
  rfl

/-- The receiver has points or takes over a single contour. -/
lemma merges_of_fits (ha : a.Wf) (hb : b.Wf) (hempty : a.points = [] → b.parts = [0])
    (hfits : Fits a b) : Merges a b := by
  refine merges_of_cycles ha hb fun c hc => ?_
  by_cases hpoints : a.points = []
  · have hmerge : a.merge b = b := by
      rw [merge_of_empty ha hpoints, ← hempty hpoints]
    rw [mergedContours, if_pos hpoints] at hc
    rw [Fits, hpoints, List.length_nil, Nat.zero_add] at hfits
    rw [hmerge]
    rcases hfits with hsize | ⟨hsize, -⟩
    · exact (hb.hasContours hsize).cycles c hc
    · rw [contours_of_parts (hempty hpoints), hsize] at hc
      obtain rfl := List.mem_singleton.1 hc
      exact cycles_all hsize (by simp [hempty hpoints]) (by simp [hempty hpoints])
  · have hlen : (a.merge b).points.length = a.points.length + b.points.length :=
      List.length_append
    rcases hfits with hsize | ⟨hsize, hnone | ⟨hnone, hparts⟩⟩
    · have hstarts := starts_merge hb hpoints hsize
      refine cycles_of_sorted ?_ (hlen ▸ hsize) ?_
      · rw [hstarts]
        exact sorted_append ha hb
      · rwa [contours, hstarts, hlen, ← mergedContours_eq hb hpoints]
    · exact absurd hnone hpoints
    · have ha_len : a.points.length = 2 ^ 32 := by rwa [hnone] at hsize
      have hparts' : (a.merge b).parts = [0, 0] := by
        rw [merge, if_pos hpoints, hparts, hb.empty hnone, ha_len]
        rfl
      rw [mergedContours, if_neg hpoints, contours_of_parts hparts, ha_len,
        contours_of_parts (hb.empty hnone), hnone] at hc
      rcases List.mem_cons.1 hc with rfl | hc
      · exact cycles_all (hlen.trans hsize) (by simp [hparts']) (by simp [hparts'])
      · -- the contour that `b` adds has no points
        obtain rfl := List.mem_singleton.1 hc
        exact fun n hn => absurd hn.2 (Nat.not_lt_of_le hn.1)

/-- An empty receiver goes round the points of `b` as one contour. -/
lemma Merges.single (ha : a.Wf) (hb : b.Wf) (hm : Merges a b) (hpoints : a.points = []) :
    b.parts = [0] := by
  obtain ⟨l, hl⟩ := List.head?_eq_some_iff.1 hb.head
  cases l with
  | nil => exact hl
  | cons t l =>
    have hb_points : b.points ≠ [] := fun h => by simp [hb.empty h] at hl
    have ht : 0 < t := (List.pairwise_cons.1 (hl ▸ hb.sorted)).1 t List.mem_cons_self
    have hlt := hb.within hb_points t (by simp [hl])
    have htpos : 0 < t.toNat := UInt32.lt_iff_toNat_lt.1 ht
    have hc : ⟨0, t.toNat⟩ ∈ mergedContours a b := by
      rw [mergedContours, if_pos hpoints, Path.contours, starts, hl]
      exact List.mem_cons_self
    obtain ⟨i, j, -, hi, hnext, hj, -⟩ :=
      hm.contours.cycles _ hc (t.toNat - 1) ⟨Nat.zero_le _, Nat.sub_lt htpos one_pos⟩
    have hend : (i + 1).toNat = t.toNat := by
      rw [UInt32.toNat_add, hi]
      show (t.toNat - 1 + 1) % 2 ^ 32 = _
      rw [Nat.sub_add_cancel htpos, Nat.mod_eq_of_lt t.toNat_lt]
    rw [merge_of_empty ha hpoints] at hnext
    have hstep : next ⟨b.points, [0]⟩ (part ⟨b.points, [0]⟩ i) i = .ok (i + 1) := by
      show (if (i + 1).toNat = b.points.length then _ else _) = _
      rw [if_neg (by omega)]
    obtain rfl := Except.ok.inj (hstep.symm.trans hnext)
    have hturn : Block.next ⟨0, t.toNat⟩ (t.toNat - 1) = 0 := if_pos (Nat.sub_add_cancel htpos)
    rw [hend, hturn] at hj
    exact absurd hj htpos.ne'

/-- From the last index there is no way on but to index 0. -/
lemma next_last (hsize : p.points.length = 2 ^ 32) (hne : p.parts ≠ []) {i j : UInt32}
    (hi : i.toNat = 2 ^ 32 - 1) (hnext : p.next (p.part i) i = .ok j) : j = 0 := by
  have hlen : 0 < p.parts.length := List.length_pos_iff.2 hne
  have hpart : p.part i = p.parts.length - 1 := partIn_last fun s _ => by
    have := s.toNat_lt
    rw [UInt32.le_iff_toNat_le]
    omega
  have hstop : p.stop (p.part i) = .ok (2 ^ 32) := by
    rw [hpart, stop, if_pos (Nat.sub_add_cancel hlen), hsize]
  rw [next, hstop, Run.bind_ok, if_neg (UInt32.toNat_lt _).ne] at hnext
  obtain rfl := Except.ok.inj hnext
  rw [← UInt32.toNat_inj, UInt32.toNat_add, hi]
  rfl

/-- Past `2 ^ 32` points some have no index, and with that many the last one leads to 0. -/
lemma Merges.fits (ha : a.Wf) (hm : Merges a b) : Fits a b := by
  have hlen : (a.merge b).points.length = a.points.length + b.points.length :=
    List.length_append
  by_contra hfits
  have hle : 2 ^ 32 ≤ a.points.length + b.points.length :=
    Nat.le_of_not_lt fun h => hfits (.inl h)
  obtain ⟨c, ⟨hc, hcn⟩, -⟩ := hm.contours.covers (a.points.length + b.points.length - 1)
    (by omega)
  obtain ⟨i, j, -, hi, hnext, hj, -⟩ := hm.contours.cycles c hc _ hcn
  have hsize : a.points.length + b.points.length = 2 ^ 32 := by
    have hlt : i.toNat < 2 ^ 32 := i.toNat_lt
    omega
  obtain ⟨l, hl⟩ := List.head?_eq_some_iff.1 ha.head
  have hne : (a.merge b).parts ≠ [] := by
    rw [merge]
    split_ifs <;> simp [hl]
  obtain rfl := next_last (hlen.trans hsize) hne (hsize ▸ hi) hnext
  -- so that contour is the first one, and ends with the last point
  have hstart : c.start = 0 ∧ c.stop = 2 ^ 32 := by
    rw [hsize, Block.next] at hj
    split_ifs at hj with hstop
    · exact ⟨hj.symm, hstop.symm⟩
    · cases hj
  refine hfits (.inr ⟨hsize, or_iff_not_imp_left.2 fun hpoints => ?_⟩)
  rw [mergedContours, if_neg hpoints] at hc
  rcases List.mem_append.1 hc with hc | hc
  · rw [Path.contours, starts, hl] at hc
    cases l with
    | nil =>
      obtain rfl := List.mem_singleton.1 hc
      exact ⟨List.length_eq_zero_iff.1 (by have := hstart.2; dsimp only at this; omega), hl⟩
    | cons t l =>
      have hsorted := ha.sorted_starts
      rw [starts, hl] at hsorted
      rcases List.mem_cons.1 hc with rfl | hc
      · exact absurd hstart.2 t.toNat_lt.ne
      · have hpos := (List.pairwise_cons.1 hsorted).1 _ (start_mem_of_mem_blocks hc)
        exact absurd hstart.1 hpos.ne'
  · obtain ⟨d, -, rfl⟩ := List.mem_map.1 hc
    have hpos := List.length_pos_iff.2 hpoints
    have hzero : a.points.length + d.start = 0 := hstart.1
    omega

/-- `merge` is right if and only if the receiver has points or takes over a single contour,
and the points can be counted. -/
theorem merges_iff (ha : a.Wf) (hb : b.Wf) :
    Merges a b ↔ (a.points = [] → b.parts = [0]) ∧ Fits a b :=
  ⟨fun hm => ⟨hm.single ha hb, hm.fits ha⟩, fun h => merges_of_fits ha hb h.1 h.2⟩

/-- Two triangles. -/
def triangles : Path Char := ⟨['a', 'b', 'c', 'd', 'e', 'f'], [0, 3]⟩

lemma triangles_wf : triangles.Wf := by
  refine ⟨by simp [triangles], rfl, fun _ s hs => ?_, nofun⟩
  obtain rfl | rfl : s = 0 ∨ s = 3 := by simpa [triangles] using hs
  · show 0 < 6
    decide
  · show 3 < 6
    decide

/-- Merged into themselves they are four. -/
theorem merges_iff_triangles : Merges triangles triangles :=
  (merges_iff triangles_wf triangles_wf).2 ⟨nofun, .inl (by simp [triangles])⟩

/-- Merged into a new path they are one hexagon: the way leads on from the last point of the
first triangle into the second. -/
theorem triangles_joined : Wf (⟨[], [0]⟩ : Path Char) ∧ triangles.Wf ∧
    (merge ⟨[], [0]⟩ triangles).parts = [0] ∧
      next (merge ⟨[], [0]⟩ triangles) (part (merge ⟨[], [0]⟩ triangles) 2) 2 = .ok 3 ∧
        ¬ Merges ⟨[], [0]⟩ triangles := by
  have hempty : Wf (⟨[], [0]⟩ : Path Char) := ⟨by simp, rfl, nofun, fun _ => rfl⟩
  exact ⟨hempty, triangles_wf, rfl, rfl, fun hm =>
    absurd (hm.single hempty triangles_wf rfl) (by simp [triangles])⟩

end merging
end Path
end CoreCommon
