import CoreCommon.Map

/-! The table as bytes and entries, and how an update of one slot changes them. -/
namespace CoreCommon.Map
variable {K V : Type} {multiple : Bool}

/-- A byte of the table; empty outside it. -/
def byte (m : Map K V multiple) (i : ℕ) (c : Fin 16) : UInt8 :=
  m.controlBytes.getD i (fun _ => 0) c

def IsLive (b : UInt8) : Prop := b ≠ 0 ∧ b ≠ sentinel

instance (b : UInt8) : Decidable (IsLive b) := inferInstanceAs (Decidable (_ ∧ _))

/-- Slot `(i, c)` holds the entry. -/
def At (m : Map K V multiple) (i : ℕ) (c : Fin 16) (k : K) (v : V) : Prop :=
  IsLive (m.byte i c) ∧ m.buckets[i * 16 + c]? = some (k, v)

def Holds (m : Map K V multiple) (k : K) (v : V) : Prop := ∃ i c, m.At i c k v

def home (hash : K → UInt64) (k : K) : ℕ := (doHash hash k >>> 8).toNat

def partialHash (hash : K → UInt64) (k : K) : UInt8 := (doHash hash k).toUInt8

lemma not_isLive {b : UInt8} : ¬ IsLive b ↔ b = sentinel ∨ b = 0 := by
  unfold IsLive
  tauto

lemma isLive_partialHash (hash : K → UInt64) (k : K) : IsLive (partialHash hash k) := by
  unfold partialHash doHash
  dsimp only
  split_ifs with h
  · rw [UInt64.toUInt8_not]
    rcases h with h | h <;> rw [h] <;> decide
  · exact ⟨fun h0 => h (.inl h0), fun hs => h (.inr hs)⟩

/-! ### Memory -/

section memory
variable {m m' : Map K V multiple} {i : ℕ}

lemma byte_of_le (h : m.controlBytes.length ≤ i) (c : Fin 16) : m.byte i c = 0 := by
  unfold byte
  rw [List.getD_eq_default _ _ h]

lemma lt_of_byte_ne_zero {c : Fin 16} (h : m.byte i c ≠ 0) : i < m.controlBytes.length := by
  by_contra hi
  exact h (byte_of_le (not_lt.1 hi) c)

lemma At.lt {c : Fin 16} {k : K} {v : V} (h : m.At i c k v) : i < m.controlBytes.length :=
  lt_of_byte_ne_zero h.1.1

lemma control_eq (h : i < m.controlBytes.length) : m.control i = .ok (m.byte i) := by
  unfold control byte
  rw [List.getElem?_eq_getElem h]
  simp [List.getD_eq_getElem?_getD, List.getElem?_eq_getElem h]

lemma lt_of_control {current : ControlBytes} (h : m.control i = .ok current) :
    i < m.controlBytes.length ∧ current = m.byte i := by
  by_cases hi : i < m.controlBytes.length
  · rw [control_eq hi] at h
    exact ⟨hi, (Except.ok.inj h).symm⟩
  · unfold control at h
    rw [List.getElem?_eq_none (not_lt.1 hi)] at h
    cases h

lemma bucket_eq_ok {j : ℕ} {b : K × V} : m.bucket j = .ok b ↔ m.buckets[j]? = some b := by
  unfold bucket
  cases m.buckets[j]? <;> simp

lemma setBucket_eq_ok {j : ℕ} {b : K × V} : m.setBucket j b = .ok m' ↔
    j < m.buckets.length ∧ m' = { m with buckets := m.buckets.set j b } := by
  unfold setBucket
  split_ifs with h
  · simp [h, eq_comm]
  · simp [h]

/-- The map with another byte in slot `(i, c)`. -/
def withByte (m : Map K V multiple) (i : ℕ) (c : Fin 16) (b : UInt8) : Map K V multiple :=
  { m with controlBytes := m.controlBytes.set i (Function.update (m.byte i) c b) }

@[simp] lemma withByte_length (c : Fin 16) (b : UInt8) :
    (m.withByte i c b).controlBytes.length = m.controlBytes.length := List.length_set

@[simp] lemma withByte_buckets (c : Fin 16) (b : UInt8) :
    (m.withByte i c b).buckets = m.buckets := rfl

@[simp] lemma withByte_count (c : Fin 16) (b : UInt8) : (m.withByte i c b).count = m.count := rfl

lemma setControl_eq (h : i < m.controlBytes.length) (c : Fin 16) (b : UInt8) :
    m.setControl i c b = .ok (m.withByte i c b) := by
  unfold setControl
  rw [control_eq h, Run.bind_ok]
  rfl

lemma byte_withByte (h : i < m.controlBytes.length) (c : Fin 16) (b : UInt8) (j : ℕ)
    (d : Fin 16) : (m.withByte i c b).byte j d = if j = i ∧ d = c then b else m.byte j d := by
  rw [byte, withByte, List.getD_eq_getElem?_getD]
  by_cases hj : j = i
  · subst hj
    rw [List.getElem?_set_self h, Option.getD_some, Function.update_apply]
    simp
  · rw [List.getElem?_set_ne (Ne.symm hj), ← List.getD_eq_getElem?_getD, if_neg (by tauto)]
    rfl

end memory

/-! ### Updates of one slot -/

lemma slot_injective {i i' : ℕ} {c c' : Fin 16} (h : i * 16 + (c : ℕ) = i' * 16 + (c' : ℕ)) :
    i = i' ∧ c = c' := by
  have hc := c.2
  have hc' := c'.2
  exact ⟨by omega, Fin.ext (by omega)⟩

section updates
variable {m : Map K V multiple} {g : ℕ} {c : Fin 16}

lemma At.bucket_unique {i : ℕ} {d : Fin 16} {k k' : K} {v v' : V} (h : m.At i d k v)
    (h' : m.At i d k' v') : k = k' ∧ v = v' :=
  Prod.mk.inj (Option.some.inj (h.2.symm.trans h'.2))

lemma at_withByte (hg : g < m.controlBytes.length) {b : UInt8} (hb : ¬ IsLive b) {i : ℕ}
    {d : Fin 16} {k : K} {v : V} :
    (m.withByte g c b).At i d k v ↔ ¬ (i = g ∧ d = c) ∧ m.At i d k v := by
  unfold At
  rw [byte_withByte hg]
  split_ifs with h <;> simp [h, hb]

/-- The map with slot `(g, c)` holding the entry `e` under the byte `b`. -/
def put (m : Map K V multiple) (g : ℕ) (c : Fin 16) (b : UInt8) (e : K × V) : Map K V multiple :=
  { m.withByte g c b with buckets := m.buckets.set (g * 16 + c) e }

@[simp] lemma put_length (b : UInt8) (e : K × V) :
    (m.put g c b e).controlBytes.length = m.controlBytes.length := List.length_set

@[simp] lemma put_buckets_length (b : UInt8) (e : K × V) :
    (m.put g c b e).buckets.length = m.buckets.length := List.length_set

@[simp] lemma put_count (b : UInt8) (e : K × V) : (m.put g c b e).count = m.count := rfl

lemma byte_put (hg : g < m.controlBytes.length) (b : UInt8) (e : K × V) (j : ℕ) (d : Fin 16) :
    (m.put g c b e).byte j d = if j = g ∧ d = c then b else m.byte j d := byte_withByte hg c b j d

lemma at_put (hg : g < m.controlBytes.length) (hj : g * 16 + (c : ℕ) < m.buckets.length)
    {b : UInt8} (hb : IsLive b) {e : K × V} {i : ℕ} {d : Fin 16} {k : K} {v : V} :
    (m.put g c b e).At i d k v ↔
      i = g ∧ d = c ∧ e = (k, v) ∨ ¬ (i = g ∧ d = c) ∧ m.At i d k v := by
  unfold At
  rw [byte_put hg]
  by_cases h : i = g ∧ d = c
  · obtain ⟨rfl, rfl⟩ := h
    simp [put, hb, hj]
  · have hne : g * 16 + (c : ℕ) ≠ i * 16 + (d : ℕ) := fun he =>
      h ⟨(slot_injective he).1.symm, (slot_injective he).2.symm⟩
    rw [if_neg h, put, List.getElem?_set_ne hne]
    simp only [h, not_false_eq_true, true_and]
    tauto

/-- Only the value of a live slot's bucket changes. -/
lemma put_self (hg : g < m.controlBytes.length) (e : K × V) :
    m.put g c (m.byte g c) e = { m with buckets := m.buckets.set (g * 16 + c) e } := by
  have hset : m.controlBytes.set g (m.byte g) = m.controlBytes := by
    have hbyte : m.byte g = m.controlBytes[g] := by
      funext d
      simp [byte, List.getD_eq_getElem?_getD, List.getElem?_eq_getElem hg]
    rw [hbyte, List.set_getElem_self]
  simp [put, withByte, hset]

end updates

/-! ### Counting -/

/-- The slots that hold an entry. -/
def liveSet (m : Map K V multiple) : Finset (ℕ × Fin 16) :=
  (Finset.range m.controlBytes.length ×ˢ Finset.univ).filter fun s => IsLive (m.byte s.1 s.2)

section counting
variable {m : Map K V multiple} {i : ℕ} {c : Fin 16}

lemma mem_liveSet {s : ℕ × Fin 16} : s ∈ m.liveSet ↔ IsLive (m.byte s.1 s.2) := by
  simp only [liveSet, Finset.mem_filter, Finset.mem_product, Finset.mem_range, Finset.mem_univ,
    and_true, and_iff_right_iff_imp]
  exact fun h => lt_of_byte_ne_zero h.1

lemma liveSet_withByte_live (hi : i < m.controlBytes.length) {b : UInt8} (hb : IsLive b) :
    (m.withByte i c b).liveSet = Insert.insert (i, c) m.liveSet := by
  ext ⟨j, d⟩
  rw [mem_liveSet, Finset.mem_insert, mem_liveSet, byte_withByte hi, Prod.mk.injEq]
  dsimp only
  split_ifs with h <;> simp [h, hb]

lemma liveSet_withByte_free (hi : i < m.controlBytes.length) {b : UInt8} (hb : ¬ IsLive b) :
    (m.withByte i c b).liveSet = m.liveSet.erase (i, c) := by
  ext ⟨j, d⟩
  rw [mem_liveSet, Finset.mem_erase, mem_liveSet, byte_withByte hi, ne_eq, Prod.mk.injEq]
  dsimp only
  split_ifs with h <;> simp [h, hb]

lemma card_withByte_live (hi : i < m.controlBytes.length) {b : UInt8} (hb : IsLive b)
    (hfree : ¬ IsLive (m.byte i c)) : (m.withByte i c b).liveSet.card = m.liveSet.card + 1 := by
  rw [liveSet_withByte_live hi hb, Finset.card_insert_of_notMem (by rwa [mem_liveSet])]

lemma card_withByte_free (hi : i < m.controlBytes.length) {b : UInt8} (hb : ¬ IsLive b)
    (hlive : IsLive (m.byte i c)) : (m.withByte i c b).liveSet.card + 1 = m.liveSet.card := by
  rw [liveSet_withByte_free hi hb]
  exact Finset.card_erase_add_one (mem_liveSet.2 hlive)

end counting

/-! ### Invariants -/

/-- What holds of the table between any two steps: a power of two of groups, a bucket behind
every live byte, and under the byte the partial hash of the bucket's key. -/
structure Sound (hash : K → UInt64) (m : Map K V multiple) : Prop where
  size : ∃ e ≤ 31, m.controlBytes.length = 2 ^ e
  stored : ∀ i c, IsLive (m.byte i c) → ∃ b, m.buckets[i * 16 + (c : ℕ)]? = some b
  target_eq : ∀ i c k v, m.At i c k v → m.byte i c = partialHash hash k

/-- The count and the number of buckets as well. -/
structure Tidy (hash : K → UInt64) (m : Map K V multiple) : Prop extends Sound hash m where
  counted : m.count = m.liveSet.card
  room : m.buckets.length = m.controlBytes.length * 16 % 2 ^ 32

lemma sentinel_not_live : ¬ IsLive sentinel := fun h => h.2 rfl

section invariants
variable {hash : K → UInt64} {m m' : Map K V multiple} {k : K} {g : ℕ} {c : Fin 16}

lemma length_pos (hsize : ∃ e ≤ 31, m.controlBytes.length = 2 ^ e) :
    0 < m.controlBytes.length := by
  obtain ⟨e, -, he⟩ := hsize
  exact he ▸ Nat.two_pow_pos e

lemma length_dvd (hsize : ∃ e ≤ 31, m.controlBytes.length = 2 ^ e) :
    m.controlBytes.length ∣ 2 ^ 32 := by
  obtain ⟨e, hle, he⟩ := hsize
  exact he ▸ Nat.pow_dvd_pow 2 (by omega)

lemma Sound.pos (hm : m.Sound hash) : 0 < m.controlBytes.length := length_pos hm.size

lemma Sound.dvd (hm : m.Sound hash) : m.controlBytes.length ∣ 2 ^ 32 := length_dvd hm.size

lemma Sound.withCount (hm : m.Sound hash) (count : ℕ) : (m.withCount count).Sound hash :=
  ⟨hm.size, hm.stored, hm.target_eq⟩

/-- Removing an entry. -/
lemma Sound.withByte_free (hm : m.Sound hash) (hg : g < m.controlBytes.length) {b : UInt8}
    (hb : ¬ IsLive b) : (m.withByte g c b).Sound hash where
  size := by rw [withByte_length]; exact hm.size
  stored := by
    intro i d hlive
    rw [byte_withByte hg] at hlive
    split_ifs at hlive with h
    · exact absurd hlive hb
    · exact hm.stored i d hlive
  target_eq := by
    intro i d k v hat
    obtain ⟨hne, hat⟩ := (at_withByte hg hb).1 hat
    rw [byte_withByte hg, if_neg hne]
    exact hm.target_eq _ _ _ _ hat

/-- Writing an entry into a slot. -/
lemma Sound.put (hm : m.Sound hash) (hg : g < m.controlBytes.length)
    (hj : g * 16 + (c : ℕ) < m.buckets.length) (k : K) (v : V) :
    (m.put g c (partialHash hash k) (k, v)).Sound hash where
  size := by rw [put_length]; exact hm.size
  stored := by
    intro i d hlive
    rw [byte_put hg] at hlive
    by_cases h : i = g ∧ d = c
    · obtain ⟨rfl, rfl⟩ := h
      exact ⟨(k, v), List.getElem?_set_self hj⟩
    · rw [if_neg h] at hlive
      obtain ⟨b, hb⟩ := hm.stored i d hlive
      refine ⟨b, ?_⟩
      rw [Map.put, List.getElem?_set_ne fun he =>
        h ⟨(slot_injective he).1.symm, (slot_injective he).2.symm⟩]
      exact hb
  target_eq := by
    intro i d k' v' hat
    rw [byte_put hg]
    rcases (at_put hg hj (isLive_partialHash hash k)).1 hat with ⟨hi, hd, he⟩ | ⟨hne, hat⟩
    · rw [if_pos ⟨hi, hd⟩, (Prod.mk.inj he).1]
    · rw [if_neg hne]
      exact hm.target_eq _ _ _ _ hat

lemma Tidy.put_fresh (hm : m.Tidy hash) (hg : g < m.controlBytes.length)
    (hj : g * 16 + (c : ℕ) < m.buckets.length) (k : K) (v : V) (hfree : ¬ IsLive (m.byte g c)) :
    ((m.put g c (partialHash hash k) (k, v)).withCount (m.count + 1)).Tidy hash := by
  refine { (hm.put hg hj k v).withCount (m.count + 1) with counted := ?_, room := ?_ }
  · have hcard := card_withByte_live hg (isLive_partialHash hash k) hfree
    exact (congrArg (· + 1) hm.counted).trans hcard.symm
  · have hlen := put_length (m := m) (g := g) (c := c) (partialHash hash k) (k, v)
    exact (put_buckets_length (partialHash hash k) (k, v)).trans
      (hm.room.trans (congrArg (· * 16 % 2 ^ 32) hlen.symm))

lemma Tidy.put_hit (hm : m.Tidy hash) {w : V} (hat : m.At g c k w) (v : V) :
    (m.put g c (partialHash hash k) (k, v)).Tidy hash := by
  have hj : g * 16 + (c : ℕ) < m.buckets.length := (List.getElem?_eq_some_iff.1 hat.2).1
  refine { hm.put hat.lt hj k v with counted := ?_, room := ?_ }
  · have hsame : (m.withByte g c (partialHash hash k)).liveSet = m.liveSet := by
      rw [liveSet_withByte_live hat.lt (isLive_partialHash hash k),
        Finset.insert_eq_self.2 (mem_liveSet.2 hat.1)]
    exact hm.counted.trans (congrArg Finset.card hsame.symm)
  · have hlen := put_length (m := m) (g := g) (c := c) (partialHash hash k) (k, v)
    exact (put_buckets_length (partialHash hash k) (k, v)).trans
      (hm.room.trans (congrArg (· * 16 % 2 ^ 32) hlen.symm))

lemma Tidy.erase (hm : m.Tidy hash) (hlive : IsLive (m.byte g c)) :
    ((m.withByte g c sentinel).withCount (m.count - 1)).Tidy hash := by
  have hg := lt_of_byte_ne_zero hlive.1
  have hsound := (hm.withByte_free hg sentinel_not_live (c := c)).withCount (m.count - 1)
  refine { hsound with counted := ?_, room := ?_ }
  · have hcard := card_withByte_free hg sentinel_not_live hlive
    have hcount := hm.counted
    show m.count - 1 = (m.withByte g c sentinel).liveSet.card
    omega
  · exact hm.room.trans (congrArg (· * 16 % 2 ^ 32) (withByte_length c sentinel).symm)

/-- Moving an entry to a free slot, which may be the one it leaves. -/
lemma Tidy.move (hm : m.Tidy hash) {i : ℕ} {d : Fin 16} {v : V} (hat : m.At i d k v)
    (hg : g < m.controlBytes.length) (hj : g * 16 + (c : ℕ) < m.buckets.length)
    (hfree : ¬ IsLive ((m.withByte i d sentinel).byte g c)) :
    ((m.withByte i d sentinel).put g c (partialHash hash k) (k, v)).Tidy hash := by
  have hlen : (m.withByte i d sentinel).controlBytes.length = m.controlBytes.length :=
    withByte_length _ _
  have hg' : g < (m.withByte i d sentinel).controlBytes.length := hlen ▸ hg
  refine { (hm.withByte_free hat.lt sentinel_not_live).put hg' hj k v with
    counted := ?_, room := ?_ }
  · have hremoved := card_withByte_free hat.lt sentinel_not_live hat.1
    have hadded := card_withByte_live hg' (isLive_partialHash hash k) hfree
    exact hm.counted.trans (hremoved.symm.trans hadded.symm)
  · rw [put_buckets_length, put_length, hlen]
    exact hm.room

end invariants

/-! ### Growing -/

section growing
variable [Inhabited K] [Inhabited V] {hash : K → UInt64} {m : Map K V multiple} {n : ℕ}

lemma byte_grow (hn : m.controlBytes.length ≤ n) (i : ℕ) (c : Fin 16) :
    (m.grow n).byte i c = m.byte i c := by
  unfold byte grow resizeList
  dsimp only
  rw [List.take_of_length_le hn]
  by_cases hi : i < m.controlBytes.length
  · rw [List.getD_append _ _ _ _ hi]
  · rw [List.getD_append_right _ _ _ _ (not_lt.1 hi), List.getD_eq_default _ _ (not_lt.1 hi)]
    rw [List.getD_eq_getElem?_getD, List.getElem?_replicate]
    split_ifs <;> rfl

lemma grow_length (hn : m.controlBytes.length ≤ n) : (m.grow n).controlBytes.length = n := by
  simp only [grow, resizeList, List.length_append, List.length_take, List.length_replicate]
  omega

lemma grow_buckets_length : (m.grow n).buckets.length = n * 16 % 2 ^ 32 := by
  simp only [grow, resizeList, List.length_append, List.length_take, List.length_replicate]
  omega

lemma grow_buckets (hn : m.buckets.length ≤ n * 16 % 2 ^ 32) {j : ℕ} (hj : j < m.buckets.length) :
    (m.grow n).buckets[j]? = m.buckets[j]? := by
  unfold grow resizeList
  dsimp only
  rw [List.take_of_length_le hn, List.getElem?_append_left hj]

lemma liveSet_grow (hn : m.controlBytes.length ≤ n) : (m.grow n).liveSet = m.liveSet := by
  ext s
  rw [mem_liveSet, mem_liveSet, byte_grow hn]


omit [Inhabited K] [Inhabited V] in
/-- A table that is to be doubled holds an entry, so its number of buckets has not wrapped. -/
lemma Tidy.of_loadFactor (hm : m.Tidy hash) (hload : m.loadFactor) :
    (∃ i c, IsLive (m.byte i c)) ∧ m.buckets.length = m.controlBytes.length * 16 ∧
      ∃ e ≤ 27, m.controlBytes.length = 2 ^ e := by
  have hcount : m.count ≠ 0 := by
    intro h0
    rw [loadFactor, h0, show toFloat 0 = 0 from rfl] at hload
    exact absurd hload (by simp)
  rw [hm.counted, Finset.card_ne_zero] at hcount
  obtain ⟨⟨i, c⟩, hs⟩ := hcount
  have hlive := mem_liveSet.1 hs
  obtain ⟨b, hb⟩ := hm.stored i c hlive
  have hpos : 0 < m.buckets.length :=
    (Nat.zero_le _).trans_lt (List.getElem?_eq_some_iff.1 hb).1
  obtain ⟨e, -, he⟩ := hm.size
  have hroom := hm.room
  have he27 : e ≤ 27 := by
    by_contra hlt
    have hdvd : 2 ^ 32 ∣ m.controlBytes.length * 16 := by
      rw [he, show 16 = 2 ^ 4 from rfl, ← Nat.pow_add]
      exact Nat.pow_dvd_pow 2 (by omega)
    rw [Nat.mod_eq_zero_of_dvd hdvd] at hroom
    omega
  refine ⟨⟨i, c, hlive⟩, ?_, e, he27, he⟩
  have hle : 2 ^ e ≤ 2 ^ 27 := Nat.pow_le_pow_right two_pos he27
  rw [hroom, he, Nat.mod_eq_of_lt (by omega)]

lemma at_grow (hroom : m.buckets.length = m.controlBytes.length * 16)
    (hsmall : m.controlBytes.length < 2 ^ 27) {i : ℕ} {c : Fin 16} {k : K} {v : V} :
    (m.grow (2 * m.controlBytes.length)).At i c k v ↔ m.At i c k v := by
  unfold At
  rw [byte_grow (Nat.le_mul_of_pos_left _ two_pos)]
  refine and_congr_right fun hlive => ?_
  have hi := lt_of_byte_ne_zero hlive.1
  have hc := c.2
  rw [grow_buckets _ (by omega)]
  rw [Nat.mod_eq_of_lt (by omega)]
  omega

lemma Tidy.grow (hm : m.Tidy hash) (hload : m.loadFactor)
    (hsmall : m.controlBytes.length < 2 ^ 27) :
    (m.grow (2 * m.controlBytes.length)).Tidy hash := by
  obtain ⟨-, hroom, e, he27, he⟩ := hm.of_loadFactor hload
  have hle : m.controlBytes.length ≤ 2 * m.controlBytes.length := Nat.le_mul_of_pos_left _ two_pos
  refine ⟨⟨⟨e + 1, by omega, ?_⟩, fun i c hlive => ?_, fun i c k v hat => ?_⟩, ?_, ?_⟩
  · rw [grow_length hle, he, Nat.pow_succ, Nat.mul_comm]
  · rw [byte_grow hle] at hlive
    obtain ⟨⟨k, v⟩, hb⟩ := hm.stored i c hlive
    exact ⟨_, ((at_grow hroom hsmall).2 ⟨hlive, hb⟩).2⟩
  · rw [byte_grow hle]
    exact hm.target_eq _ _ _ _ ((at_grow hroom hsmall).1 hat)
  · rw [liveSet_grow hle]
    exact hm.counted
  · rw [grow_length hle, grow_buckets_length]

/-- The resize of a map that is to be doubled; the number of groups does not wrap. -/
lemma checkResize_eq (hm : m.Tidy hash) (fuel : ℕ) : m.checkResize hash fuel =
    if m.loadFactor then
      (slots m.controlBytes.length).foldlM
        (relocate hash fuel (2 * m.controlBytes.length) m.controlBytes.length)
        (m.grow (2 * m.controlBytes.length))
    else .ok m := by
  unfold checkResize
  split_ifs with hload
  · obtain ⟨-, -, e, he27, he⟩ := hm.of_loadFactor hload
    have hpow : 2 ^ e ≤ 2 ^ 27 := Nat.pow_le_pow_right two_pos he27
    have hto : m.controlBytes.length * 2 % 2 ^ 32 = 2 * m.controlBytes.length := by
      rw [Nat.mod_eq_of_lt (by omega), Nat.mul_comm]
    rw [resize, hto]
  · rfl

lemma ofCapacity_ok {cap : ℕ} (hrun : ofCapacity hash cap = .ok m) :
    m.Tidy hash ∧ ∀ i c, m.byte i c = 0 := by
  unfold ofCapacity at hrun
  split_ifs at hrun with hcap
  have hsize : Nat.size cap + 1 ≤ 31 := Nat.succ_le_succ (Nat.size_le.2 hcap)
  set e := Nat.size cap + 1
  obtain rfl : (⟨0, [], []⟩ : Map K V multiple).grow (2 ^ e) = m := Except.ok.inj hrun
  have hlen : ((⟨0, [], []⟩ : Map K V multiple).grow (2 ^ e)).controlBytes.length = 2 ^ e :=
    grow_length (Nat.zero_le _)
  have hbyte : ∀ i c, ((⟨0, [], []⟩ : Map K V multiple).grow (2 ^ e)).byte i c = 0 :=
    fun i c => (byte_grow (Nat.zero_le _) i c).trans (byte_of_le (Nat.zero_le _) c)
  refine ⟨⟨⟨⟨e, hsize, hlen⟩, fun i c h => absurd (hbyte i c) h.1, fun i c k v h =>
    absurd (hbyte i c) h.1.1⟩, ?_, ?_⟩, hbyte⟩
  · rw [liveSet_grow (Nat.zero_le _)]
    rfl
  · rw [hlen]
    exact grow_buckets_length

end growing
end CoreCommon.Map
