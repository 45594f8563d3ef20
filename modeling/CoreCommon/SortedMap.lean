import CoreCommon.Fault

/-! The skip list of `SortedMap` under insertion with the default `Compare`. An iterator is the
node it points to, or none for `end()`; the cells of one key have one node name on all levels.
Searches run on fuel. -/
namespace CoreCommon

abbrev Iter := Option ℕ

structure Up (K V : Type) where
  node : ℕ
  kv : K × V
  up : Iter

/-- `std::variant<SkipIter, KVIter>`. -/
inductive Down
  | skip (it : Iter)
  | kv (it : Iter)

structure Skip (K V : Type) extends Up K V where
  down : Down

/-- `skiplists` has the top level first. -/
structure SortedMap (K V : Type) where
  center : Iter
  skiplists : List (List (Skip K V))
  kvs : List (Up K V)

namespace SortedMap
variable {K V α : Type}

def empty : SortedMap K V := ⟨none, [[]], []⟩

/-! ### Lists -/

def iterAt (toUp : α → Up K V) (l : List α) (i : ℕ) : Iter := l[i]?.map fun x => (toUp x).node

/-- The position of an iterator into the list. -/
def index (toUp : α → Up K V) (l : List α) : Iter → Run ℕ
  | none => .ok l.length
  | some n =>
    match l.findIdx? fun x => (toUp x).node = n with
    | some i => .ok i
    | none => .error .undefined

def cell (l : List α) (i : ℕ) : Run α :=
  match l[i]? with
  | some x => .ok x
  | none => .error .undefined

/-- `__builtin_ctz` of an `unsigned`. -/
def density (count : ℕ) : Run ℕ :=
  match (List.range 32).find? fun i => count.testBit i with
  | some d => .ok d
  | none => .error .undefined

/-! ### Searching -/

variable [LinearOrder K]

/-- The loop of `locate`. Stepping back from `begin()` is harmless as long as the result is not
dereferenced. -/
def locateLoop (keys : List K) (k : K) : ℕ → ℕ → Run (Bool × ℕ)
  | 0, _ => .error .diverges
  | fuel + 1, i => do
    let key ← cell keys i
    if k = key then .ok (true, i)
    else if key ≤ k ∧ ∀ forward ∈ keys[i + 1]?, ¬ forward ≤ k then .ok (false, i + 1)
    else if ¬ key ≤ k ∧ (i = 0 ∨ ∃ backward ∈ keys[i - 1]?, backward ≤ k) then .ok (false, i)
    else locateLoop keys k fuel (if key ≤ k then i + 1 else i - 1)

def locate (toUp : α → Up K V) (fuel : ℕ) (l : List α) (it : Iter) (k : K) : Run (Bool × Iter) := do
  let i ← index toUp l it
  let (found, i) ← locateLoop (l.map fun x => (toUp x).kv.1) k fuel i
  .ok (found, iterAt toUp l i)

structure LocationRec where
  match_ : Bool
  path : List Iter
  kvIter : Iter

/-- The loop of `locate_rec` over the levels: whether it stopped on a match, and `reset` and
`path` after it. -/
def descend (fuel : ℕ) (k : K) (stopOnMatch : Bool) :
    List (List (Skip K V)) → Iter → Bool → List Iter → Run (Bool × Bool × List Iter)
  | [], _, reset, path => .ok (false, reset, path)
  | skipl :: rest, cur, reset, path => do
    let cur := if reset then iterAt Skip.toUp skipl 0 else cur
    if cur.isSome then do
      let (found, cur) ← locate Skip.toUp fuel skipl cur k
      if found && stopOnMatch then .ok (true, reset, path)
      else do
        let cur := if cur.isNone then iterAt Skip.toUp skipl (skipl.length - 1) else cur
        let i ← index Skip.toUp skipl cur
        let s ← cell skipl i
        match s.down with
        | .skip it => descend fuel k stopOnMatch rest it false (path ++ [cur])
        -- `std::get<SkipIter>` throws
        | .kv _ => .error .assertion
    else descend fuel k stopOnMatch rest cur true (path ++ [cur])

def locateRec (fuel : ℕ) (m : SortedMap K V) (k : K) (stopOnMatch : Bool) : Run LocationRec := do
  let (found, reset, path) ← descend fuel k stopOnMatch m.skiplists m.center false []
  if found then .ok ⟨true, path, none⟩
  else if m.kvs.length = 0 then .ok ⟨false, path, none⟩
  else if reset then do
    let (found, it) ← locate id fuel m.kvs (iterAt id m.kvs 0) k
    .ok ⟨found, path, it⟩
  -- `cur` is below the last level
  else .error .undefined

/-! ### Operations -/

def setUp (node : ℕ) (u : Up K V) : Up K V := if u.node = node then { u with up := some node } else u

/-- `*up = insertion` for a cell on level `i`: the cell below it is in `kvs` or on the next
level. -/
def raise (m : SortedMap K V) (i node : ℕ) : SortedMap K V :=
  if i + 1 = m.skiplists.length then { m with kvs := m.kvs.map (setUp node) }
  else
    let lift := fun s : Skip K V => { s with toUp := setUp node s.toUp }
    { m with skiplists := m.skiplists.modify (i + 1) (List.map lift) }

/-- The `d` levels that a new key gets, from level `i` upwards. -/
def tower (path : List Iter) (node : ℕ) (kv : K × V) :
    ℕ → ℕ → Down → SortedMap K V → Run (SortedMap K V)
  | 0, _, _, m => .ok m
  | d + 1, i, down, m => do
    let it ← cell path i
    let skipl ← cell m.skiplists i
    let j ← index Skip.toUp skipl it
    let m := { m with skiplists := m.skiplists.set i (skipl.insertIdx j ⟨⟨node, kv, none⟩, down⟩) }
    tower path node kv d (i - 1) (.skip (some node)) (m.raise i node)

def insert (fuel : ℕ) (m : SortedMap K V) (k : K) (v : V) : Run (SortedMap K V) := do
  let loc ← m.locateRec fuel k false
  let node := m.kvs.length
  let i ← index id m.kvs loc.kvIter
  let kvs := m.kvs.insertIdx i ⟨node, (k, v), none⟩
  let d ← density (kvs.length % 2 ^ 32)
  let added := d - m.skiplists.length
  let skiplists := List.replicate added [] ++ m.skiplists
  tower loc.path node (k, v) d (skiplists.length - 1) (.kv (some node))
    ⟨if added = 0 then m.center else none, skiplists, kvs⟩

/-- `operator[]`: the value pointed to. -/
def lookup (fuel : ℕ) (m : SortedMap K V) (k : K) : Run (Option V) := do
  let loc ← m.locateRec fuel k true
  if loc.match_ then do
    let i ← index id m.kvs loc.kvIter
    let u ← cell m.kvs i
    .ok (some u.kv.2)
  else .ok none

def inserts (fuel : ℕ) (l : List (K × V)) : Run (SortedMap K V) :=
  l.foldlM (fun m e => m.insert fuel e.1 e.2) empty

/-! ### Correctness -/

/-- The cells of each level are a sublist of those below, through their down links. -/
def Linked (kvs : List (Up K V)) : List (List (Skip K V)) → Prop
  | [] => True
  | [l] => (l.map fun s => (s.down, s.kv)).Sublist (kvs.map fun u => (.kv (some u.node), u.kv))
  | l :: l' :: ls =>
    (l.map fun s => (s.down, s.kv)).Sublist (l'.map fun s => (.skip (some s.node), s.kv)) ∧
      Linked kvs (l' :: ls)

/-- Sorted on all levels, linked, and `operator[]` finds what was inserted. -/
structure Correct (fuel : ℕ) (l : List (K × V)) (m : SortedMap K V) : Prop where
  sorted : (m.kvs.map fun u => u.kv.1).Pairwise (· < ·)
  levels : ∀ skipl ∈ m.skiplists, (skipl.map fun s => s.kv.1).Pairwise (· < ·)
  linked : Linked m.kvs m.skiplists
  found : ∀ k v, (k, v) ∈ l → m.lookup fuel k = .ok (some v)
  absent : ∀ k, (∀ v, (k, v) ∉ l) → m.lookup fuel k = .ok none

/-! ### Lists -/

omit [LinearOrder K] in
lemma cell_append (pre post : List α) (x : α) : cell (pre ++ x :: post) pre.length = .ok x := by
  simp [cell]

omit [LinearOrder K] in
lemma insertIdx_append (pre post : List α) (x : α) :
    (pre ++ post).insertIdx pre.length x = pre ++ x :: post := by
  induction pre with
  | nil => rfl
  | cons y pre ih => simp [ih]

omit [LinearOrder K] in
/-- The iterator at a position points to it when all nodes have different names. -/
lemma index_iterAt {toUp : α → Up K V} {pre post : List α}
    (hnodup : ((pre ++ post).map fun x => (toUp x).node).Nodup) :
    index toUp (pre ++ post) (iterAt toUp (pre ++ post) pre.length) = .ok pre.length := by
  cases post with
  | nil => simp [iterAt, index]
  | cons x post =>
    have hpre : ∀ y ∈ pre, (toUp y).node ≠ (toUp x).node := by
      rw [List.map_append, List.nodup_append] at hnodup
      exact fun y hy => hnodup.2.2 _ (List.mem_map_of_mem hy) _ (by simp)
    have hnone : (pre.findIdx? fun y => decide ((toUp y).node = (toUp x).node)) = none := by
      simpa using hpre
    simp [iterAt, index, List.findIdx?_append, hnone, List.findIdx?_cons]

section loop
variable {k x : K} {pre rest : List K} {fuel : ℕ}

omit [LinearOrder K] in
lemma next_getElem (pre rest : List K) (x : K) :
    (pre ++ x :: rest)[pre.length + 1]? = rest.head? := by
  rw [List.getElem?_append_right (Nat.le_succ _)]
  cases rest <;> simp

lemma prev_getElem (hpre : ∀ y ∈ pre, y < k) :
    pre.length = 0 ∨ ∃ backward ∈ (pre ++ x :: rest)[pre.length - 1]?, backward ≤ k := by
  cases pre using List.reverseRecOn with
  | nil => exact .inl rfl
  | append_singleton pre y =>
    refine .inr ⟨y, ?_, (hpre y (by simp)).le⟩
    simp

/-- It stops at the first key that is not below `k`. -/
lemma locateLoop_stop (hsorted : (pre ++ x :: rest).Pairwise (· < ·)) (hpre : ∀ y ∈ pre, y < k)
    (hx : k ≤ x) : (∀ y ∈ x :: rest, k ≤ y) ∧ locateLoop (pre ++ x :: rest) k (fuel + 1) pre.length =
      .ok (decide (k ∈ pre ++ x :: rest), pre.length) := by
  have habove : ∀ y ∈ rest, x < y := (List.pairwise_cons.1 (List.pairwise_append.1 hsorted).2.1).1
  refine ⟨fun y hy => ?_, ?_⟩
  · rcases List.mem_cons.1 hy with rfl | hy
    · exact hx
    · exact hx.trans (habove y hy).le
  · unfold locateLoop
    rw [cell_append, Run.bind_ok]
    by_cases hkx : k = x
    · simp [hkx]
    · have hlt := lt_of_le_of_ne hx hkx
      have hnot : k ∉ pre ++ x :: rest := by
        intro hk
        rcases List.mem_append.1 hk with hk | hk
        · exact lt_irrefl k (hpre k hk)
        · rcases List.mem_cons.1 hk with hk | hk
          · exact hkx hk
          · exact lt_asymm hlt (habove k hk)
      rw [if_neg hkx, if_neg fun h => not_le.2 hlt h.1, if_pos ⟨not_le.2 hlt, prev_getElem hpre⟩,
        decide_eq_false hnot]

/-- It stops behind a key below `k` when the next one is not. -/
lemma locateLoop_pass (hpre : ∀ y ∈ pre, y < k) (hx : x < k) (hrest : ∀ y ∈ rest, k < y) :
    locateLoop (pre ++ x :: rest) k (fuel + 1) pre.length =
      .ok (decide (k ∈ pre ++ x :: rest), pre.length + 1) := by
  unfold locateLoop
  rw [cell_append, Run.bind_ok, if_neg hx.ne', if_pos]
  · have hnot : k ∉ pre ++ x :: rest := by
      intro hk
      rcases List.mem_append.1 hk with hk | hk
      · exact lt_irrefl k (hpre k hk)
      · rcases List.mem_cons.1 hk with hk | hk
        · exact hx.ne' hk
        · exact lt_irrefl k (hrest k hk)
    rw [decide_eq_false hnot]
  · rw [next_getElem]
    exact ⟨hx.le, fun y hy => not_le.2 (hrest y (List.mem_of_mem_head? hy))⟩

/-- On a sorted list `locate` goes forward to the first key not below `k`. -/
lemma locateLoop_ok (hsorted : (pre ++ x :: rest).Pairwise (· < ·)) (hpre : ∀ y ∈ pre, y < k)
    (hfuel : rest.length < fuel) : ∃ below above, pre ++ x :: rest = below ++ above ∧
      (∀ y ∈ below, y < k) ∧ (∀ y ∈ above, k ≤ y) ∧ locateLoop (pre ++ x :: rest) k fuel pre.length =
        .ok (decide (k ∈ pre ++ x :: rest), below.length) := by
  induction rest generalizing pre x fuel with
  | nil =>
    obtain ⟨fuel, rfl⟩ := Nat.exists_eq_succ_of_ne_zero (Nat.ne_of_gt hfuel)
    rcases le_or_gt k x with hx | hx
    · exact ⟨pre, [x], rfl, hpre, locateLoop_stop hsorted hpre hx⟩
    · refine ⟨pre ++ [x], [], (List.append_nil _).symm, ?_, nofun, ?_⟩
      · simpa [or_imp, forall_and] using ⟨hpre, hx⟩
      · rw [locateLoop_pass hpre hx (List.forall_mem_nil _), List.length_append, List.length_singleton]
  | cons z rest ih =>
    obtain ⟨fuel, rfl⟩ := Nat.exists_eq_succ_of_ne_zero (Nat.ne_of_gt (Nat.zero_lt_of_lt hfuel))
    rcases le_or_gt k x with hx | hx
    · exact ⟨pre, x :: z :: rest, rfl, hpre, locateLoop_stop hsorted hpre hx⟩
    have hpre' : ∀ y ∈ pre ++ [x], y < k := by simpa [or_imp, forall_and] using ⟨hpre, hx⟩
    have hassoc : pre ++ x :: z :: rest = (pre ++ [x]) ++ z :: rest := by simp
    by_cases hz : z ≤ k
    · -- one step forward
      have hstep : locateLoop (pre ++ x :: z :: rest) k (fuel + 1) pre.length =
          locateLoop (pre ++ x :: z :: rest) k fuel (pre.length + 1) := by
        rw [locateLoop, cell_append, Run.bind_ok, if_neg hx.ne', if_neg, if_neg, if_pos hx.le]
        · exact fun h => h.1 hx.le
        · rw [next_getElem]
          exact fun h => h.2 z rfl hz
      rw [hstep, hassoc]
      have hlen : pre.length + 1 = (pre ++ [x]).length := by simp
      rw [hlen]
      exact ih (hassoc ▸ hsorted) hpre' (Nat.lt_of_succ_lt_succ hfuel)
    · have hrest : ∀ y ∈ z :: rest, k < y := by
        intro y hy
        rcases List.mem_cons.1 hy with rfl | hy
        · exact not_le.1 hz
        · have habove := (List.pairwise_cons.1 (List.pairwise_cons.1
            (List.pairwise_append.1 hsorted).2.1).2).1
          exact (not_le.1 hz).trans (habove y hy)
      refine ⟨pre ++ [x], z :: rest, hassoc, hpre', fun y hy => (hrest y hy).le, ?_⟩
      rw [locateLoop_pass hpre hx hrest, List.length_append, List.length_singleton]

/-- `locate` from `begin()`. -/
lemma locate_begin {toUp : α → Up K V} {l : List α} (hne : l ≠ [])
    (hsorted : (l.map fun x => (toUp x).kv.1).Pairwise (· < ·))
    (hnodup : (l.map fun x => (toUp x).node).Nodup) (hfuel : l.length ≤ fuel) :
    ∃ below above, l = below ++ above ∧ (∀ x ∈ below, (toUp x).kv.1 < k) ∧
      (∀ x ∈ above, k ≤ (toUp x).kv.1) ∧ locate toUp fuel l (iterAt toUp l 0) k =
        .ok (decide (k ∈ l.map fun x => (toUp x).kv.1), iterAt toUp l below.length) := by
  have hindex : index toUp l (iterAt toUp l 0) = .ok 0 := @index_iterAt _ _ _ toUp [] l hnodup
  obtain ⟨x, rest, rfl⟩ := List.exists_cons_of_ne_nil hne
  have hfuel' : (rest.map fun x => (toUp x).kv.1).length < fuel := by simpa using hfuel
  obtain ⟨below, above, heq, hbelow, habove, hloop⟩ :=
    @locateLoop_ok _ _ k _ [] _ fuel hsorted (List.forall_mem_nil _) hfuel'
  obtain ⟨below, above, hl, rfl, rfl⟩ := List.map_eq_append_iff.1
    (show (x :: rest).map (fun x => (toUp x).kv.1) = below ++ above from heq)
  refine ⟨below, above, hl, fun y hy => hbelow _ (List.mem_map_of_mem hy),
    fun y hy => habove _ (List.mem_map_of_mem hy), ?_⟩
  unfold locate
  rw [hindex, Run.bind_ok, List.map_cons]
  rw [List.nil_append, List.length_nil, List.length_map] at hloop
  rw [hloop]
  rfl

end loop

/-! ### Up to three keys -/

/-- Before a second level is added `center` is `end()`, and no search looks at the one there is. -/
structure Early (l : List (K × V)) (m : SortedMap K V) : Prop where
  center : m.center = none
  sorted : (m.kvs.map fun u => u.kv.1).Pairwise (· < ·)
  pairs : (m.kvs.map Up.kv).Perm l
  nodup : (m.kvs.map Up.node).Nodup
  fresh : ∀ u ∈ m.kvs, u.node < m.kvs.length
  level : ∃ skipl, m.skiplists = [skipl] ∧ 2 * skipl.length ≤ m.kvs.length ∧ Linked m.kvs [skipl]

section early
variable {l : List (K × V)} {m : SortedMap K V} {fuel : ℕ}

lemma early_empty : Early [] (empty : SortedMap K V) :=
  ⟨rfl, .nil, .nil, .nil, nofun, [], rfl, le_rfl, .refl _⟩

lemma Early.length_eq (hm : Early l m) : m.kvs.length = l.length := by
  rw [← hm.pairs.length_eq, List.length_map]

lemma Early.index_below (hm : Early l m) {below above : List (Up K V)} (hkvs : m.kvs = below ++ above) :
    index id m.kvs (iterAt id m.kvs below.length) = .ok below.length := by
  have hnodup := hm.nodup
  rw [hkvs] at hnodup ⊢
  exact index_iterAt hnodup

lemma Early.locateRec (hm : Early l m) (k : K) (stopOnMatch : Bool) (hfuel : l.length < fuel) :
    ∃ below above, m.kvs = below ++ above ∧ (∀ u ∈ below, u.kv.1 < k) ∧ (∀ u ∈ above, k ≤ u.kv.1) ∧
      m.locateRec fuel k stopOnMatch = .ok ⟨decide (k ∈ m.kvs.map fun u => u.kv.1), [none],
        iterAt id m.kvs below.length⟩ := by
  obtain ⟨skipl, hskip, -⟩ := hm.level
  have hdescend : descend fuel k stopOnMatch m.skiplists m.center false [] =
      .ok (false, true, [none]) := by
    rw [hskip, hm.center]
    rfl
  have hlen := hm.length_eq
  unfold SortedMap.locateRec
  rw [hdescend, Run.bind_ok]
  rcases hkvs : m.kvs with _ | ⟨u, rest⟩
  · exact ⟨[], [], rfl, nofun, nofun, rfl⟩
  · have hne : m.kvs ≠ [] := hkvs ▸ List.cons_ne_nil _ _
    obtain ⟨below, above, heq, hbelow, habove, hlocate⟩ :=
      @locate_begin K V _ _ k fuel id m.kvs hne hm.sorted hm.nodup (hlen.trans_le hfuel.le)
    refine ⟨below, above, hkvs ▸ heq, hbelow, habove, ?_⟩
    rw [hkvs] at hlocate
    dsimp only
    rw [if_neg Bool.false_ne_true, List.length_cons,
      if_neg (Nat.succ_ne_zero rest.length), if_pos rfl, hlocate]
    rfl

lemma pairwise_insert {R : α → α → Prop} {below above : List α} {x : α}
    (h : (below ++ above).Pairwise R) (hbelow : ∀ y ∈ below, R y x) (habove : ∀ y ∈ above, R x y) :
    (below ++ x :: above).Pairwise R := by
  obtain ⟨hb, ha, hba⟩ := List.pairwise_append.1 h
  refine List.pairwise_append.2 ⟨hb, List.pairwise_cons.2 ⟨habove, ha⟩, fun y hy z hz => ?_⟩
  rcases List.mem_cons.1 hz with rfl | hz
  · exact hbelow y hy
  · exact hba y hy z hz

/-- The state after `kvs` has got a new pair between smaller and greater keys. -/
lemma Early.insert_kvs (hm : Early l m) {below above : List (Up K V)} (hkvs : m.kvs = below ++ above)
    {k : K} (v : V) (hbelow : ∀ u ∈ below, u.kv.1 < k) (habove : ∀ u ∈ above, k < u.kv.1) :
    Early (l ++ [(k, v)]) { m with kvs := below ++ ⟨m.kvs.length, (k, v), none⟩ :: above } := by
  obtain ⟨skipl, hskip, hlen, hlinked⟩ := hm.level
  have hsub : m.kvs.Sublist (below ++ ⟨m.kvs.length, (k, v), none⟩ :: above) := by
    rw [hkvs]
    exact (List.Sublist.refl below).append (List.sublist_cons_self _ _)
  have hlength : (below ++ ⟨m.kvs.length, (k, v), none⟩ :: above).length = m.kvs.length + 1 := by
    rw [hkvs]
    simp
    omega
  have hmem : ∀ u, u ∈ below ∨ u ∈ above → u.node < m.kvs.length := by
    intro u hu
    exact hm.fresh u (hkvs ▸ List.mem_append.2 hu)
  refine ⟨hm.center, ?_, ?_, ?_, fun u hu => ?_, skipl, hskip, ?_, ?_⟩
  · rw [List.pairwise_map]
    have hsorted := List.pairwise_map.1 hm.sorted
    exact pairwise_insert (hkvs ▸ hsorted) hbelow habove
  · have hpairs := hm.pairs
    rw [hkvs] at hpairs
    simp only [List.map_append, List.map_cons] at hpairs ⊢
    exact List.perm_middle.trans ((hpairs.cons _).trans (List.perm_append_singleton _ _).symm)
  · have hnodup := List.pairwise_map.1 hm.nodup
    refine List.pairwise_map.2 (pairwise_insert (hkvs ▸ hnodup) ?_ ?_)
    · exact fun u hu => (hmem u (.inl hu)).ne
    · exact fun u hu => (hmem u (.inr hu)).ne'
  · rw [hlength]
    rcases List.mem_append.1 hu with hu | hu
    · exact Nat.lt_succ_of_lt (hmem u (.inl hu))
    · rcases List.mem_cons.1 hu with rfl | hu
      · exact Nat.lt_succ_self _
      · exact Nat.lt_succ_of_lt (hmem u (.inr hu))
  · exact hlen.trans (hsub.length_le)
  · exact hlinked.trans (hsub.map _)

/-- The second key also gets a cell on the level. -/
lemma Early.raise {k : K} {v : V} (hm : Early (l ++ [(k, v)]) m) {u : Up K V} (hu : u ∈ m.kvs) (hkv : u.kv = (k, v)) (htwo : 2 ≤ m.kvs.length) :
    Early (l ++ [(k, v)]) ⟨m.center, [[⟨⟨u.node, (k, v), none⟩, .kv (some u.node)⟩]],
      m.kvs.map (setUp u.node)⟩ := by
  have hnode : ∀ w : Up K V, (setUp u.node w).node = w.node := by
    intro w
    unfold setUp
    split_ifs <;> rfl
  have hpair : ∀ w : Up K V, (setUp u.node w).kv = w.kv := by
    intro w
    unfold setUp
    split_ifs <;> rfl
  refine ⟨hm.center, ?_, ?_, ?_, ?_, _, rfl, ?_, ?_⟩
  · simpa [List.map_map, Function.comp_def, hpair] using hm.sorted
  · simpa [List.map_map, Function.comp_def, hpair] using hm.pairs
  · simpa [List.map_map, Function.comp_def, hnode] using hm.nodup
  · simpa [hnode] using hm.fresh
  · simpa using htwo
  · unfold Linked
    rw [List.map_map, List.map_singleton, List.singleton_sublist]
    refine List.mem_map.2 ⟨u, hu, ?_⟩
    simp [hnode, hpair, hkv]

lemma Early.insert (hm : Early l m) (hshort : l.length < 3) (hfuel : l.length < fuel) {k : K} (v : V)
    (hk : ∀ v, (k, v) ∉ l) : ∃ m', m.insert fuel k v = .ok m' ∧ Early (l ++ [(k, v)]) m' := by
  obtain ⟨below, above, hkvs, hbelow, habove, hlocate⟩ := hm.locateRec k false hfuel
  obtain ⟨skipl, hskip, htwice, hlinked⟩ := hm.level
  have hnot : ∀ u ∈ m.kvs, u.kv.1 ≠ k := by
    rintro u hu rfl
    exact hk u.kv.2 (hm.pairs.mem_iff.1 (List.mem_map_of_mem hu))
  have habove' : ∀ u ∈ above, k < u.kv.1 := fun u hu =>
    lt_of_le_of_ne (habove u hu) (hnot u (hkvs ▸ List.mem_append_right _ hu)).symm
  have hearly := hm.insert_kvs hkvs v hbelow habove'
  have hindex := hm.index_below hkvs
  have hlen := hm.length_eq
  have hlength : (below ++ ⟨m.kvs.length, (k, v), none⟩ :: above).length = l.length + 1 := by
    rw [← hlen, hkvs]
    simp
    omega
  unfold SortedMap.insert
  rw [hlocate, Run.bind_ok]
  dsimp only
  rw [hindex, Run.bind_ok, hkvs, insertIdx_append, ← hkvs, hlength, hskip]
  rcases hone : l.length with _ | _ | _ | n
  · exact ⟨_, rfl, by simpa [hskip, hkvs] using hearly⟩
  · have hnil : skipl = [] := List.length_eq_zero_iff.1 (by omega)
    subst hnil
    refine ⟨_, rfl, ?_⟩
    have hraise := hearly.raise (u := ⟨m.kvs.length, (k, v), none⟩) (by simp) rfl
      (le_trans (by omega) hlength.ge)
    exact hraise
  · exact ⟨_, rfl, by simpa [hskip] using hearly⟩
  · omega

/-- The fourth key gets two levels, but the path has only one entry. -/
lemma Early.insert_fails (hm : Early l m) (hthree : l.length = 3) (hfuel : l.length < fuel) (k : K)
    (v : V) : m.insert fuel k v = .error .undefined := by
  obtain ⟨below, above, hkvs, -, -, hlocate⟩ := hm.locateRec k false hfuel
  obtain ⟨skipl, hskip, -⟩ := hm.level
  have hindex := hm.index_below hkvs
  have hlen := hm.length_eq
  have hlength : (below ++ ⟨m.kvs.length, (k, v), none⟩ :: above).length = 4 := by
    rw [hkvs] at hlen ⊢
    simp at hlen ⊢
    omega
  unfold SortedMap.insert
  rw [hlocate, Run.bind_ok]
  dsimp only
  rw [hindex, Run.bind_ok, hkvs, insertIdx_append, ← hkvs, hlength, hskip]
  rfl

lemma inserts_append (fuel : ℕ) (l : List (K × V)) (e : K × V) (rest : List (K × V)) :
    inserts fuel (l ++ e :: rest) = (inserts fuel l >>= fun m => m.insert fuel e.1 e.2) >>= fun m =>
      rest.foldlM (fun m e => m.insert fuel e.1 e.2) m := by
  simp [inserts, List.foldlM_append]

/-- Up to three keys every insertion ends and keeps `Early`. -/
lemma inserts_early (l : List (K × V)) (hdistinct : (l.map Prod.fst).Nodup) (hshort : l.length ≤ 3)
    (hfuel : 3 < fuel) : ∃ m, inserts fuel l = .ok m ∧ Early l m := by
  induction l using List.reverseRecOn with
  | nil => exact ⟨empty, rfl, early_empty⟩
  | append_singleton l e ih =>
    rw [List.map_append, List.nodup_append] at hdistinct
    obtain ⟨hl, -, hnew⟩ := hdistinct
    rw [List.length_append, List.length_singleton] at hshort
    obtain ⟨m, hrun, hm⟩ := ih hl (by omega)
    have hk : ∀ v, (e.1, v) ∉ l := fun v hv =>
      hnew e.1 (List.mem_map.2 ⟨(e.1, v), hv, rfl⟩) e.1 (by simp) rfl
    obtain ⟨m', hinsert, hm'⟩ := hm.insert (by omega) (show l.length < fuel by omega) e.2 hk
    refine ⟨m', ?_, hm'⟩
    rw [inserts_append, hrun, Run.bind_ok, hinsert]
    rfl

lemma Early.lookup (hm : Early l m) (hfuel : l.length < fuel) (k : K) :
    (∃ v, (k, v) ∈ l ∧ m.lookup fuel k = .ok (some v)) ∨
      (∀ v, (k, v) ∉ l) ∧ m.lookup fuel k = .ok none := by
  obtain ⟨below, above, hkvs, hbelow, habove, hlocate⟩ := hm.locateRec k true hfuel
  have hkeys : k ∈ (m.kvs.map fun u => u.kv.1) ↔ ∃ v, (k, v) ∈ l := by
    rw [List.mem_map]
    constructor
    · rintro ⟨u, hu, rfl⟩
      exact ⟨u.kv.2, hm.pairs.mem_iff.1 (List.mem_map_of_mem hu)⟩
    · rintro ⟨v, hv⟩
      obtain ⟨u, hu, hkv⟩ := List.mem_map.1 (hm.pairs.mem_iff.2 hv)
      exact ⟨u, hu, congrArg Prod.fst hkv⟩
  unfold SortedMap.lookup
  rw [hlocate, Run.bind_ok]
  by_cases hk : k ∈ m.kvs.map fun u => u.kv.1
  · refine .inl ?_
    obtain ⟨u, hu, hku⟩ := List.mem_map.1 hk
    have habove' : u ∈ above := by
      rcases List.mem_append.1 (hkvs ▸ hu) with hu | hu
      · exact absurd hku (hbelow u hu).ne
      · exact hu
    obtain ⟨w, rest, rfl⟩ := List.exists_cons_of_ne_nil (List.ne_nil_of_mem habove')
    have hw : w = u := by
      rcases List.mem_cons.1 habove' with heq | hrest
      · exact heq.symm
      · have hsorted := List.pairwise_map.1 hm.sorted
        rw [hkvs] at hsorted
        have hlt := (List.pairwise_cons.1 (List.pairwise_append.1 hsorted).2.1).1 u hrest
        exact absurd (hku ▸ hlt) (not_lt.2 (habove w (by simp)))
    subst hw
    have hindex := hm.index_below hkvs
    refine ⟨w.kv.2, ?_, ?_⟩
    · rw [← hku]
      exact hm.pairs.mem_iff.1 (List.mem_map_of_mem hu)
    · dsimp only
      rw [decide_eq_true hk, if_pos rfl, hindex, Run.bind_ok, hkvs, cell_append]
      rfl
  · refine .inr ⟨fun v hv => hk (hkeys.2 ⟨v, hv⟩), ?_⟩
    dsimp only
    rw [decide_eq_false hk]
    rfl

lemma Early.correct (hm : Early l m) (hdistinct : (l.map Prod.fst).Nodup) (hfuel : l.length < fuel) :
    m.Correct fuel l := by
  obtain ⟨skipl, hskip, hlen, hlinked⟩ := hm.level
  have hunique : ∀ {k v w}, (k, v) ∈ l → (k, w) ∈ l → v = w := fun hv hw =>
    (Prod.mk.inj (List.inj_on_of_nodup_map hdistinct hv hw rfl)).2
  refine ⟨hm.sorted, fun s hs => ?_, hskip ▸ hlinked, fun k v hv => ?_, fun k hk => ?_⟩
  · obtain rfl : s = skipl := List.mem_singleton.1 (hskip ▸ hs)
    have hsub := List.Sublist.map (fun x : Down × K × V => x.2.1) hlinked
    simp only [List.map_map, Function.comp_def] at hsub
    exact hm.sorted.sublist hsub
  · rcases hm.lookup hfuel k with ⟨w, hw, hlookup⟩ | ⟨hnone, -⟩
    · rw [hlookup, hunique hv hw]
    · exact absurd hv (hnone v)
  · rcases hm.lookup hfuel k with ⟨w, hw, -⟩ | ⟨-, hlookup⟩
    · exact absurd hw (hk w)
    · exact hlookup

/-- For pairwise distinct keys everything holds up to three of them, and the fourth insertion
indexes past the end of the path. -/
theorem inserts_correct_iff (l : List (K × V)) (hdistinct : (l.map Prod.fst).Nodup) :
    (∃ n, ∀ fuel ≥ n, ∃ m, inserts fuel l = .ok m ∧ m.Correct fuel l) ↔ l.length ≤ 3 := by
  constructor
  · rintro ⟨n, hn⟩
    by_contra hlong
    obtain ⟨m, hrun, -⟩ := hn (max n 4) (le_max_left _ _)
    obtain ⟨e, rest, hrest⟩ := List.exists_cons_of_ne_nil
      (List.ne_nil_of_length_pos (show 0 < (l.drop 3).length by rw [List.length_drop]; omega))
    have hsplit : l = l.take 3 ++ e :: rest := by rw [← hrest, List.take_append_drop]
    have htake : (l.take 3).length = 3 := by rw [List.length_take]; omega
    have hprefix : ((l.take 3).map Prod.fst).Nodup := by
      rw [List.map_take]
      exact hdistinct.sublist (List.take_sublist _ _)
    have hfour : 4 ≤ max n 4 := le_max_right _ _
    obtain ⟨m₃, hrun₃, hm₃⟩ := inserts_early (l.take 3) hprefix htake.le hfour
    rw [hsplit, inserts_append, hrun₃, Run.bind_ok,
      hm₃.insert_fails htake (show _ < max n 4 by omega)] at hrun
    cases hrun
  · intro hshort
    refine ⟨4, fun fuel hfuel => ?_⟩
    obtain ⟨m, hrun, hm⟩ := inserts_early l hdistinct hshort hfuel
    exact ⟨m, hrun, hm.correct hdistinct (show _ < fuel by omega)⟩

/-- Two keys. -/
theorem inserts_correct_iff_example : (∃ n, ∀ fuel ≥ n, ∃ m, inserts fuel [(1, 2), (2, 3)] = .ok m ∧
    m.Correct fuel [(1, 2), (2, 3)]) ↔ [((1 : ℕ), (2 : ℕ)), (2, 3)].length ≤ 3 :=
  inserts_correct_iff [(1, 2), (2, 3)] (by decide)

/-- Four keys in ascending order. -/
theorem fourth_insert_undefined : ¬ ∀ l : List (ℕ × ℕ), (l.map Prod.fst).Nodup →
    ∃ n, ∀ fuel ≥ n, ∃ m, inserts fuel l = .ok m ∧ m.Correct fuel l := by
  intro h
  obtain ⟨n, hn⟩ := h [(1, 1), (2, 2), (3, 3), (4, 4)] (by decide)
  obtain ⟨m, hrun, -⟩ := hn (n + 4) (Nat.le_add_right _ _)
  obtain ⟨m₃, hrun₃, hm₃⟩ := inserts_early [(1, 1), (2, 2), (3, 3)] (by decide) le_rfl
    (show 3 < n + 4 by omega)
  have hfour := inserts_append (n + 4) [(1, 1), (2, 2), (3, 3)] (4, 4) []
  rw [hrun₃, Run.bind_ok, hm₃.insert_fails rfl (Nat.lt_add_left n (by decide))] at hfour
  exact absurd (hrun.symm.trans hfour) nofun

end early
end SortedMap
end CoreCommon
