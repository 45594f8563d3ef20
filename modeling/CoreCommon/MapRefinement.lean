import CoreCommon.MapCalls

/-! Runs of a `Map` without duplicate keys against a finite map. A doubling of the table
leaves an entry in place when its home group stays, also where its probe had wrapped around
the old table; such an entry is lost. Every other run refines the finite map. -/
namespace CoreCommon.Map
variable {K V : Type} {multiple : Bool}

/-! ### Invariants -/

/-- No key has two entries. -/
structure Keyed (hash : K → UInt64) (m : Map K V multiple) : Prop extends Tidy hash m where
  unique : ∀ {i i' c c' k v v'}, m.At i c k v → m.At i' c' k v' → i = i' ∧ c = c'

/-- Every entry is on its key's way, so the search of the key finds it. -/
structure Valid (hash : K → UInt64) (m : Map K V multiple) : Prop extends Keyed hash m where
  chained : ∀ {i c k v}, m.At i c k v → m.Chained (home hash k) i

/-- The map holds what `m` holds, except that `k` has the value `v`. -/
def Assigns (m m' : Map K V multiple) (k : K) (v : V) : Prop :=
  ∀ k' v', m'.Holds k' v' ↔ k' = k ∧ v' = v ∨ k' ≠ k ∧ m.Holds k' v'

section invariants
variable {hash : K → UInt64} {m m' : Map K V multiple} {k : K} {v : V} {g : ℕ} {c : Fin 16}

lemma Keyed.holds_unique (hm : m.Keyed hash) {w : V} (hv : m.Holds k v) (hw : m.Holds k w) :
    v = w := by
  obtain ⟨i, d, hv⟩ := hv
  obtain ⟨i', d', hw⟩ := hw
  obtain ⟨rfl, rfl⟩ := hm.unique hv hw
  exact (hv.bucket_unique hw).2

lemma Keyed.holds_erase (hm : m.Keyed hash) {w : V} (hat : m.At g c k w) (k' : K) (v' : V) :
    (m.withByte g c sentinel).Holds k' v' ↔ k' ≠ k ∧ m.Holds k' v' := by
  simp only [Holds, at_withByte hat.lt sentinel_not_live]
  constructor
  · rintro ⟨i, d, hne, hat'⟩
    refine ⟨?_, i, d, hat'⟩
    rintro rfl
    exact hne (hm.unique hat' hat)
  · rintro ⟨hk, i, d, hat'⟩
    refine ⟨i, d, ?_, hat'⟩
    rintro ⟨rfl, rfl⟩
    exact hk (hat'.bucket_unique hat).1

/-- Writing an entry over the slot that has its key, or for a key that has none. -/
lemma unique_put (hg : g < m.controlBytes.length) (hj : g * 16 + (c : ℕ) < m.buckets.length)
    (hunique : ∀ {i i' d d' k v v'}, m.At i d k v → m.At i' d' k v' → i = i' ∧ d = d')
    (hkey : ∀ i d w, m.At i d k w → i = g ∧ d = c) {i i' : ℕ} {d d' : Fin 16} {k' : K} {w w' : V}
    (hat : (m.put g c (partialHash hash k) (k, v)).At i d k' w)
    (hat' : (m.put g c (partialHash hash k) (k, v)).At i' d' k' w') : i = i' ∧ d = d' := by
  rcases (at_put hg hj (isLive_partialHash hash k)).1 hat with ⟨hi, hd, he⟩ | ⟨hne, hat⟩ <;>
  rcases (at_put hg hj (isLive_partialHash hash k)).1 hat' with ⟨hi', hd', he'⟩ | ⟨hne', hat'⟩
  · exact ⟨hi.trans hi'.symm, hd.trans hd'.symm⟩
  · rw [← (Prod.mk.inj he).1] at hat'
    exact absurd (hkey _ _ _ hat') hne'
  · rw [← (Prod.mk.inj he').1] at hat
    exact absurd (hkey _ _ _ hat) hne
  · exact hunique hat hat'

lemma assigns_put (hg : g < m.controlBytes.length) (hj : g * 16 + (c : ℕ) < m.buckets.length)
    (hkey : ∀ i d w, m.At i d k w → i = g ∧ d = c) (hslot : ∀ k' v', m.At g c k' v' → k' = k) :
    Assigns m (m.put g c (partialHash hash k) (k, v)) k v := by
  intro k' v'
  simp only [Holds, at_put hg hj (isLive_partialHash hash k)]
  constructor
  · rintro ⟨i, d, ⟨rfl, rfl, he⟩ | ⟨hne, hat⟩⟩
    · obtain ⟨rfl, rfl⟩ := Prod.mk.inj he
      exact .inl ⟨rfl, rfl⟩
    · refine .inr ⟨?_, i, d, hat⟩
      rintro rfl
      exact hne (hkey _ _ _ hat)
  · rintro (⟨rfl, rfl⟩ | ⟨hk, i, d, hat⟩)
    · exact ⟨g, c, .inl ⟨rfl, rfl, rfl⟩⟩
    · refine ⟨i, d, .inr ⟨?_, hat⟩⟩
      rintro ⟨rfl, rfl⟩
      exact hk (hslot _ _ hat)

lemma chained_put (hg : g < m.controlBytes.length) (hj : g * 16 + (c : ℕ) < m.buckets.length)
    (hchained : ∀ {i d k v}, m.At i d k v → m.Chained (home hash k) i)
    (hslot : m.Chained (home hash k) g) {i : ℕ} {d : Fin 16} {k' : K} {w : V}
    (hat : (m.put g c (partialHash hash k) (k, v)).At i d k' w) :
    (m.put g c (partialHash hash k) (k, v)).Chained (home hash k') i := by
  rcases (at_put hg hj (isLive_partialHash hash k)).1 hat with ⟨rfl, rfl, he⟩ | ⟨-, hat⟩
  · obtain ⟨rfl, rfl⟩ := Prod.mk.inj he
    exact hslot.put hg
  · exact (hchained hat).put hg

/-- A write leaves a valid map, with the entry written and the old value the key's. -/
lemma Valid.wrote (hm : m.Valid hash) {old : Option V} (h : Wrote hash m k v old m') :
    m'.Valid hash ∧ Assigns m m' k v ∧ ∀ w, old = some w ↔ m.Holds k w := by
  have htidy := hm.toTidy.wrote h
  cases h with
  | @again i c w hat =>
    have hj := (List.getElem?_eq_some_iff.1 hat.2).1
    have hkey : ∀ i' d w', m.At i' d k w' → i' = i ∧ d = c := fun _ _ _ h => hm.unique h hat
    refine ⟨⟨⟨htidy, unique_put hat.lt hj hm.unique hkey⟩,
      chained_put hat.lt hj hm.chained (hm.chained hat)⟩,
      assigns_put hat.lt hj hkey fun _ _ h => (h.bucket_unique hat).1, fun w' => ?_⟩
    exact ⟨fun h => Option.some.inj h ▸ ⟨i, c, hat⟩, fun h =>
      congrArg some (hm.holds_unique ⟨i, c, hat⟩ h)⟩
  | @fresh i c hvacant hj =>
    have habsent : ∀ i' d w, ¬ m.At i' d k w := fun i' d w h =>
      hvacant.missed i' d w h (hm.chained h)
    have hkey : ∀ i' d w', m.At i' d k w' → i' = i ∧ d = c := fun _ _ _ h => absurd h (habsent _ _ _)
    refine ⟨⟨⟨htidy, unique_put hvacant.lt hj hm.unique hkey⟩,
      chained_put hvacant.lt hj hm.chained hvacant.chained⟩,
      assigns_put hvacant.lt hj hkey fun _ _ h => absurd h.1 (firstFree_eq_some hvacant.free).1,
      fun w => ?_⟩
    exact ⟨nofun, fun ⟨i', d, h⟩ => absurd h (habsent i' d w)⟩

lemma Valid.erase (hm : m.Valid hash) {w : V} (hat : m.At g c k w) :
    ((m.withByte g c sentinel).withCount (m.count - 1)).Valid hash := by
  have hold : ∀ {i d k v}, ((m.withByte g c sentinel).withCount (m.count - 1)).At i d k v →
      m.At i d k v := fun h => ((at_withByte hat.lt sentinel_not_live).1 h).2
  exact ⟨⟨hm.toTidy.erase hat.1, fun h h' => hm.unique (hold h) (hold h')⟩,
    fun h => (hm.chained (hold h)).tombstone hat.lt⟩

end invariants

/-! ### Resizing -/

/-- While a resize goes through the old slots: every entry is on its way, or is going to be
moved there when its slot is reached. -/
structure Moving (hash : K → UInt64) (prevSz : ℕ) (todo : List (ℕ × Fin 16))
    (m : Map K V multiple) : Prop extends Keyed hash m where
  pending : ∀ {i c k v}, m.At i c k v → m.Chained (home hash k) i ∨
    (i, c) ∈ todo ∧ prevSz ≤ home hash k % m.controlBytes.length

section resizing
variable {hash : K → UInt64} {m : Map K V multiple} {n : ℕ}

/-- Moving one entry: its old slot becomes a tombstone, its new one is on its way. -/
lemma Moving.move {prevSz : ℕ} {s : ℕ × Fin 16} {todo : List (ℕ × Fin 16)}
    (hm : m.Moving hash prevSz (s :: todo)) {k : K} {v : V} (hat : m.At s.1 s.2 k v) {g : ℕ}
    {c : Fin 16} (hg : g < m.controlBytes.length) (hj : g * 16 + (c : ℕ) < m.buckets.length)
    (hclaims : Claims hash (m.withByte s.1 s.2 sentinel) k g c) :
    let m' := (m.withByte s.1 s.2 sentinel).put g c (partialHash hash k) (k, v)
    m'.Moving hash prevSz todo ∧ ∀ k' v', m'.Holds k' v' ↔ m.Holds k' v' := by
  intro m'
  have hfree := (firstFree_eq_some hclaims.free).1
  set m₁ := m.withByte s.1 s.2 sentinel with hm₁
  have hlen : m₁.controlBytes.length = m.controlBytes.length := withByte_length _ _
  have hg₁ : g < m₁.controlBytes.length := hlen ▸ hg
  have hold : ∀ {i d k' v'}, m₁.At i d k' v' → ¬ (i = s.1 ∧ d = s.2) ∧ m.At i d k' v' :=
    fun h => (at_withByte hat.lt sentinel_not_live).1 h
  have habsent : ∀ i d w, ¬ m₁.At i d k w := fun i d w h =>
    (hold h).1 (hm.unique (hold h).2 hat)
  have hkey : ∀ i d w, m₁.At i d k w → i = g ∧ d = c := fun i d w h => absurd h (habsent i d w)
  refine ⟨⟨⟨hm.toTidy.move hat hg hj hfree, unique_put hg₁ hj
    (fun h h' => hm.unique (hold h).2 (hold h').2) hkey⟩, fun {i d k' v'} h => ?_⟩, fun k' v' => ?_⟩
  · have hlen' : m'.controlBytes.length = m.controlBytes.length := (put_length _ _).trans hlen
    rcases (at_put hg₁ hj (isLive_partialHash hash k)).1 h with ⟨rfl, rfl, he⟩ | ⟨-, h⟩
    · obtain ⟨rfl, rfl⟩ := Prod.mk.inj he
      exact .inl (hclaims.chained.put hg₁)
    · obtain ⟨hne, h⟩ := hold h
      rcases hm.pending h with hchained | ⟨hmem, hhome⟩
      · exact .inl ((hchained.tombstone hat.lt).put hg₁)
      · rcases List.mem_cons.1 hmem with rfl | hmem
        · exact absurd ⟨rfl, rfl⟩ hne
        · exact .inr ⟨hmem, hlen' ▸ hhome⟩
  · have hassigns : Assigns m₁ m' k v :=
      assigns_put hg₁ hj hkey fun k' v' h => absurd h.1 hfree
    rw [hassigns k' v', hm.holds_erase hat]
    constructor
    · rintro (⟨rfl, rfl⟩ | ⟨-, -, h⟩)
      · exact ⟨_, _, hat⟩
      · exact h
    · intro h
      by_cases hk : k' = k
      · subst hk
        exact .inl ⟨rfl, hm.holds_unique h ⟨_, _, hat⟩⟩
      · exact .inr ⟨hk, hk, h⟩

lemma Moving.relocated {prevSz : ℕ} {s : ℕ × Fin 16} {todo : List (ℕ × Fin 16)}
    (hm : m.Moving hash prevSz (s :: todo)) {m' : Map K V multiple}
    (h : Relocated hash prevSz s m m') :
    m'.Moving hash prevSz todo ∧ ∀ k v, m'.Holds k v ↔ m.Holds k v := by
  cases h with
  | stays hhome =>
    -- an entry that stays is pending only if its own slot is, which is now behind
    refine ⟨⟨hm.toKeyed, fun {i c k v} hat => ?_⟩, fun _ _ => Iff.rfl⟩
    rcases hm.pending hat with hchained | ⟨hmem, hle⟩
    · exact .inl hchained
    · rcases List.mem_cons.1 hmem with rfl | hmem
      · exact absurd (hhome _ _ hat) (not_lt.2 hle)
      · exact .inr ⟨hmem, hle⟩
  | moves hat hg hj hclaims => exact hm.move hat hg hj hclaims

lemma Moving.relocate_all {fuel prevSz : ℕ} {todo : List (ℕ × Fin 16)}
    (hm : m.Moving hash prevSz todo) (hn : m.controlBytes.length = n) {m' : Map K V multiple}
    (hrun : todo.foldlM (relocate hash fuel n prevSz) m = .ok m') :
    m'.Moving hash prevSz [] ∧ ∀ k v, m'.Holds k v ↔ m.Holds k v := by
  induction todo generalizing m with
  | nil =>
    cases hrun
    exact ⟨hm, fun _ _ => Iff.rfl⟩
  | cons s todo ih =>
    rw [List.foldlM_cons] at hrun
    obtain ⟨m₁, hfirst, hrun⟩ := Run.bind_eq_ok.1 hrun
    have hstep := relocate_ok hm.size hn hfirst
    obtain ⟨hm₁, hholds₁⟩ := hm.relocated hstep
    obtain ⟨hm', hholds'⟩ := ih hm₁ (hstep.length_eq.trans hn) hrun
    exact ⟨hm', fun k v => (hholds' k v).trans (hholds₁ k v)⟩

/-- Every entry whose home group stays where it is when the table doubles is in a group that
its probe reaches before it first wraps around. -/
def StaysPut (hash : K → UInt64) (m : Map K V multiple) : Prop :=
  ∀ i c k v, m.At i c k v → home hash k % (2 * m.controlBytes.length) < m.controlBytes.length →
    ∃ j, home hash k % (2 * m.controlBytes.length) + tri j = i

variable [Inhabited K] [Inhabited V]

lemma Chained.grow {start i : ℕ} (h : m.Chained start i) (hi : i < m.controlBytes.length)
    (hput : ∃ j, start % (2 * m.controlBytes.length) + tri j = i) :
    (m.grow (2 * m.controlBytes.length)).Chained start i := by
  have hle : m.controlBytes.length ≤ 2 * m.controlBytes.length := Nat.le_mul_of_pos_left _ two_pos
  obtain ⟨j, hj⟩ := hput
  obtain ⟨j₀, hj₀, hpassed⟩ := h
  -- the earlier of the two positions: neither probe has wrapped before it
  have hearly : ∃ j' ≤ j₀, start % (2 * m.controlBytes.length) + tri j' = i := by
    rcases le_total j j₀ with hle' | hle'
    · exact ⟨j, hle', hj⟩
    · have hmono := tri_mono hle'
      have hlt : start % (2 * m.controlBytes.length) + tri j₀ < m.controlBytes.length := by omega
      exact ⟨j₀, le_rfl, by rw [← (probeAt_double hlt).1, hj₀]⟩
  obtain ⟨j', hj', hi'⟩ := hearly
  refine ⟨j', ?_, fun j'' hj'' d => ?_⟩
  · rw [grow_length hle, (probeAt_double (hi'.symm ▸ hi)).2, hi']
  · have hmono := tri_mono hj''.le
    have hlt : start % (2 * m.controlBytes.length) + tri j'' < m.controlBytes.length := by omega
    rw [grow_length hle, byte_grow hle, (probeAt_double hlt).2, ← (probeAt_double hlt).1]
    exact hpassed j'' (by omega) d

/-- A resize that loses no entry. -/
lemma Valid.checkResize {fuel : ℕ} (hm : m.Valid hash) (hput : m.loadFactor → StaysPut hash m)
    {m' : Map K V multiple} (hrun : m.checkResize hash fuel = .ok m') :
    m'.Valid hash ∧ ∀ k v, m'.Holds k v ↔ m.Holds k v := by
  obtain ⟨-, rfl⟩ | ⟨hload, hsmall, hrun⟩ := checkResize_ok hm.toTidy hrun
  · exact ⟨hm, fun _ _ => Iff.rfl⟩
  · have hle : m.controlBytes.length ≤ 2 * m.controlBytes.length :=
      Nat.le_mul_of_pos_left _ two_pos
    obtain ⟨-, hroom, -⟩ := hm.of_loadFactor hload
    have hgrown : (m.grow (2 * m.controlBytes.length)).Moving hash m.controlBytes.length
        (slots m.controlBytes.length) := by
      refine ⟨⟨hm.grow hload hsmall, fun h h' => hm.unique ((at_grow hroom hsmall).1 h)
        ((at_grow hroom hsmall).1 h')⟩, fun {i c k v} hat => ?_⟩
      have hat := (at_grow hroom hsmall).1 hat
      rw [grow_length hle]
      by_cases hhome : home hash k % (2 * m.controlBytes.length) < m.controlBytes.length
      · exact .inl ((hm.chained hat).grow hat.lt (hput hload i c k v hat hhome))
      · exact .inr ⟨mem_slots.2 hat.lt, not_lt.1 hhome⟩
    obtain ⟨hm', hholds⟩ := hgrown.relocate_all (grow_length hle) hrun
    refine ⟨⟨hm'.toKeyed, fun hat => ?_⟩, fun k v => ?_⟩
    · rcases hm'.pending hat with hchained | ⟨hmem, -⟩
      · exact hchained
      · cases hmem
    · rw [hholds]
      exact exists_congr fun i => exists_congr fun c => at_grow hroom hsmall

end resizing

section reading
variable {hash : K → UInt64} {m : Map K V multiple} {k : K}

lemma Valid.eq_some_iff (hm : m.Valid hash) {i : ℕ} {c : Fin 16} {w : V} (hat : m.At i c k w)
    (v : V) : some w = some v ↔ m.Holds k v :=
  ⟨fun h => Option.some.inj h ▸ ⟨i, c, hat⟩, fun h =>
    congrArg some (hm.holds_unique ⟨i, c, hat⟩ h)⟩

lemma Valid.eq_none_iff (hm : m.Valid hash)
    (hmissed : ∀ i d v, m.At i d k v → ¬ m.Chained (home hash k) i) (v : V) :
    none = some v ↔ m.Holds k v :=
  ⟨nofun, fun ⟨i, d, hat⟩ => absurd (hm.chained hat) (hmissed i d v hat)⟩

end reading

/-! ### The finite map -/

section finite
variable [DecidableEq K]

/-- The finite map after a call; what an `upsert` leaves unset is what it returned. -/
def stored (f : K → Option V) : Op K V × Option V → K → Option V
  | (.insert k v, _) => Function.update f k (some v)
  | (.upsert k (some v), _) => Function.update f k (some v)
  | (.upsert k none, r) => Function.update f k r
  | (.remove k, _) => Function.update f k none
  | (.clear, _) => fun _ => none

/-- What a call may return. -/
def Returns (f : K → Option V) : Op K V × Option V → Prop
  | (.insert k _, r) => r = f k
  | (.upsert k _, r) => r.isSome ∧ ∀ v, f k = some v → r = some v
  | (.remove k, r) => r = f k
  | (.clear, r) => r = none

/-- Every call of the run returns what the finite map says. -/
def AllReturn : (K → Option V) → List (Op K V × Option V) → Prop
  | _, [] => True
  | f, call :: l => Returns f call ∧ AllReturn (stored f call) l

def Represents (m : Map K V multiple) (f : K → Option V) : Prop :=
  ∀ k v, f k = some v ↔ m.Holds k v

variable {m m' : Map K V false} {f : K → Option V} {k : K} {v : V}

lemma Represents.assign (hf : m.Represents f) (h : Assigns m m' k v) :
    m'.Represents (Function.update f k (some v)) := by
  intro k' v'
  rw [h k' v', Function.update_apply]
  split_ifs with hk
  · simp [hk, eq_comm]
  · simp [hk, hf k' v']

lemma Represents.erase (hf : m.Represents f)
    (h : ∀ k' v', m'.Holds k' v' ↔ k' ≠ k ∧ m.Holds k' v') :
    m'.Represents (Function.update f k none) := by
  intro k' v'
  rw [h k' v', Function.update_apply]
  split_ifs with hk
  · simp [hk]
  · simp [hk, hf k' v']

omit [DecidableEq K] in
lemma Represents.eq_of_holds {r : Option V} (hf : m.Represents f)
    (h : ∀ w, r = some w ↔ m.Holds k w) : r = f k :=
  Option.ext fun w => (h w).trans (hf k w).symm

omit [DecidableEq K] in
lemma Represents.congr (hf : m.Represents f) (h : ∀ k v, m'.Holds k v ↔ m.Holds k v) :
    m'.Represents f := fun k v => (hf k v).trans (h k v).symm

/-- A call that may double the table loses no entry. -/
def Keeps (hash : K → UInt64) (m : Map K V multiple) : Op K V → Prop
  | .insert _ _ => m.loadFactor → StaysPut hash m
  | .upsert _ _ => m.loadFactor → StaysPut hash m
  | .remove _ => True
  | .clear => True

variable [Inhabited K] [Inhabited V] {hash : K → UInt64}

/-- One call: the map still represents the finite map, and returns what that says. -/
lemma apply_ok {fuel : ℕ} {op : Op K V} {r : Option V} (hm : m.Valid hash)
    (hf : m.Represents f) (hkeeps : Keeps hash m op)
    (hrun : m.apply hash fuel op = .ok (m', r)) :
    m'.Valid hash ∧ m'.Represents (stored f (op, r)) ∧ Returns f (op, r) := by
  cases op with
  | insert k v =>
    obtain ⟨m₁, hresize, hwrote⟩ := insert_ok hrun
    obtain ⟨hm₁, hholds⟩ := hm.checkResize hkeeps hresize
    obtain ⟨hm', hassigns, hr⟩ := hm₁.wrote (hwrote hm₁.toSound)
    have hf₁ := hf.congr hholds
    exact ⟨hm', hf₁.assign hassigns, hf₁.eq_of_holds hr⟩
  | upsert k w =>
    obtain ⟨m₁, hresize, hwrote⟩ := apply_upsert_ok hrun
    obtain ⟨hm₁, hholds⟩ := hm.checkResize hkeeps hresize
    obtain ⟨v, old, rfl, hold, hwrote⟩ := hwrote hm₁.toSound
    obtain ⟨hm', hassigns, hr⟩ := hm₁.wrote hwrote
    have hf₁ := hf.congr hholds
    have hf' := hf₁.assign hassigns
    refine ⟨hm', ?_, rfl, fun v' hv' => congrArg some ?_⟩
    · cases w with
      | none => exact hf'
      | some w => exact hf'
    · exact (hold v' ((hr v').2 ((hf₁ k v').1 hv'))).symm
  | remove k =>
    obtain ⟨i, c, w, hat, rfl, rfl⟩ | ⟨rfl, rfl, hmissed⟩ := remove_ok hm.toSound hrun
    · exact ⟨hm.erase hat, hf.erase (hm.holds_erase hat), hf.eq_of_holds (hm.eq_some_iff hat)⟩
    · have hnone := hm.eq_none_iff hmissed
      refine ⟨hm, hf.erase fun k' v' => ⟨fun h => ⟨?_, h⟩, And.right⟩, hf.eq_of_holds hnone⟩
      rintro rfl
      exact nomatch (hnone v').2 h
  | clear =>
    obtain ⟨m₁, hclear, hrun⟩ := Run.bind_eq_ok.1 hrun
    obtain ⟨hm', -, hnone⟩ := clear_ok hm.toTidy hclear
    cases hrun
    exact ⟨⟨⟨hm', fun h => absurd h.1 (hnone _ _)⟩, fun h => absurd h.1 (hnone _ _)⟩,
      fun k v => iff_of_false nofun fun ⟨i, c, hat⟩ => hnone i c hat.1, rfl⟩

end finite
end CoreCommon.Map
