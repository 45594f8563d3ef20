import CoreCommon.MapStorage

/-! The value behind a new reference of `upsert`. Only `first` of the slot taken is written, so
a slot that was in use shows what was stored there. -/
namespace CoreCommon.Map
variable {K V : Type} {multiple : Bool}

/-- The free slots of every group with an empty byte, where a probe for a new key may stop,
hold `V()`. -/
def Blank [Inhabited V] (m : Map K V multiple) : Prop :=
  ∀ i c k v, ¬ IsLive (m.byte i c) → (∃ d, m.byte i d = 0) →
    m.buckets[i * 16 + (c : ℕ)]? = some (k, v) → v = default

/-- The entry of slot `(i, c)` can be taken out without leaving its value for a new key. -/
def Forgettable [Inhabited V] (m : Map K V multiple) (i : ℕ) (c : Fin 16) : Prop :=
  ∀ k v, m.At i c k v → (∃ d, m.byte i d = 0) → v = default

/-- A doubling of the table moves only entries with `V()`. -/
def MovesBlank [Inhabited V] (hash : K → UInt64) (m : Map K V multiple) : Prop :=
  ∀ i c k v, m.At i c k v → m.controlBytes.length ≤ home hash k % (2 * m.controlBytes.length) →
    v = default

/-- The call leaves no value but `V()` in a slot that it frees. -/
def Forgets [Inhabited V] (hash : K → UInt64) (m : Map K V multiple) : Op K V → Prop
  | .insert _ _ => m.loadFactor → MovesBlank hash m
  | .upsert _ _ => m.loadFactor → MovesBlank hash m
  | .remove k => ∀ i c v, m.At i c k v → Forgettable m i c
  | .clear => ∀ i c, Forgettable m i c

section slots
variable [Inhabited V] {hash : K → UInt64} {m m' : Map K V multiple} {g : ℕ} {c : Fin 16} {k : K}
  {v : V}

omit [Inhabited V] in
/-- A group with an empty byte had one before. -/
lemma exists_zero_of_withByte {b : UInt8} (hg : g < m.controlBytes.length) (hb : b ≠ 0) {i : ℕ}
    (h : ∃ d, (m.withByte g c b).byte i d = 0) : ∃ d, m.byte i d = 0 := by
  obtain ⟨d, hd⟩ := h
  rw [byte_withByte hg] at hd
  split_ifs at hd
  · exact absurd hd hb
  · exact ⟨d, hd⟩

lemma Blank.withByte (hm : m.Blank) (hg : g < m.controlBytes.length)
    (hforget : Forgettable m g c) : (m.withByte g c sentinel).Blank := by
  intro i d k v hfree hzero hbucket
  have hold : ∃ d, m.byte i d = 0 := exists_zero_of_withByte hg (by decide) hzero
  by_cases hlive : IsLive (m.byte i d)
  · have hslot : i = g ∧ d = c := by
      by_contra hne
      rw [byte_withByte hg, if_neg hne] at hfree
      exact hfree hlive
    obtain ⟨rfl, rfl⟩ := hslot
    exact hforget k v ⟨hlive, hbucket⟩ hold
  · exact hm i d k v hlive hold hbucket

lemma Blank.put (hm : m.Blank) (hg : g < m.controlBytes.length) {b : UInt8} (hb : IsLive b)
    (e : K × V) : (m.put g c b e).Blank := by
  intro i d k v hfree hzero hbucket
  have hne : ¬ (i = g ∧ d = c) := by
    rintro ⟨rfl, rfl⟩
    rw [byte_put hg, if_pos ⟨rfl, rfl⟩] at hfree
    exact hfree hb
  rw [byte_put hg, if_neg hne] at hfree
  refine hm i d k v hfree (exists_zero_of_withByte hg hb.1 hzero) ?_
  exact (slotBucket_put_of_ne (s := (i, d)) fun he =>
    hne ⟨(Prod.mk.inj he).1.symm, (Prod.mk.inj he).2.symm⟩).symm.trans hbucket

lemma Blank.written (hm : m.Blank) {old : Option V} (h : Written hash m k v old m') :
    m'.Blank := by
  cases h with
  | again hat => exact hm.put hat.lt (isLive_partialHash hash k) _
  | fresh hi _ _ => exact hm.put hi (isLive_partialHash hash k) _

lemma Blank.swept (hm : m.Blank) (h : Swept m m') (hforget : ∀ i c, Forgettable m i c) :
    m'.Blank := by
  intro i d k v hfree ⟨d', hd'⟩ hbucket
  have hzero : m.byte i d' = 0 := by
    rcases h.byte_eq i d' with heq | ⟨heq, -⟩
    · exact heq.symm.trans hd'
    · exact absurd (heq.symm.trans hd') (by decide)
  rw [h.buckets_eq] at hbucket
  by_cases hlive : IsLive (m.byte i d)
  · exact hforget i d k v ⟨hlive, hbucket⟩ ⟨d', hzero⟩
  · exact hm i d k v hlive ⟨d', hzero⟩ hbucket

omit [Inhabited V] in
lemma mem_entries : (k, v) ∈ m.entries ↔ m.Holds k v := by
  rw [entries, Multiset.mem_filterMap]
  constructor
  · rintro ⟨⟨i, c⟩, hs, hbucket⟩
    exact ⟨i, c, mem_liveSet.1 hs, hbucket⟩
  · rintro ⟨i, c, hlive, hbucket⟩
    exact ⟨(i, c), mem_liveSet.2 hlive, hbucket⟩

end slots

/-! ### Resizing -/

section resizing
variable [Inhabited V] {hash : K → UInt64} {m m' : Map K V multiple} {prevSz n fuel : ℕ}

/-- While a resize runs: the free slots are blank, and every entry still to be moved has `V()`. -/
structure MovingBlank (hash : K → UInt64) (prevSz : ℕ) (m : Map K V multiple) : Prop where
  blank : m.Blank
  moving : ∀ i c k v, m.At i c k v → prevSz ≤ home hash k % m.controlBytes.length → v = default

omit [Inhabited V] in
/-- An entry whose home group is below `prevSz` is left alone. -/
lemma relocate_stays {s : ℕ × Fin 16}
    (hstays : ∀ k v, m.At s.1 s.2 k v → home hash k % n < prevSz)
    (hrun : relocate hash fuel n prevSz m s = .ok m') : m' = m := by
  unfold relocate at hrun
  obtain ⟨current, hcurrent, hrun⟩ := Run.bind_eq_ok.1 hrun
  obtain ⟨hs, rfl⟩ := lt_of_control hcurrent
  by_cases hfree : m.byte s.1 s.2 = sentinel ∨ m.byte s.1 s.2 = 0
  · rw [if_pos hfree] at hrun
    exact (Except.ok.inj hrun).symm
  · rw [if_neg hfree] at hrun
    obtain ⟨⟨k, v⟩, hb, hrun⟩ := Run.bind_eq_ok.1 hrun
    have hat : m.At s.1 s.2 k v := ⟨not_not.1 (mt not_isLive.1 hfree), bucket_eq_ok.1 hb⟩
    dsimp only at hrun
    have hhome : ¬ (doHash hash k >>> 8).toNat % n ≥ prevSz := not_le.2 (hstays k v hat)
    rw [if_neg hhome] at hrun
    exact (Except.ok.inj hrun).symm

lemma MovingBlank.move {s : ℕ × Fin 16} (hm : m.MovingBlank hash prevSz) {k : K} {v : V}
    (hat : m.At s.1 s.2 k v) (hv : v = default) {g : ℕ} {c : Fin 16}
    (hg : g < m.controlBytes.length) (hj : g * 16 + (c : ℕ) < m.buckets.length) :
    ((m.withByte s.1 s.2 sentinel).put g c (partialHash hash k) (k, v)).MovingBlank hash prevSz := by
  have hlen : (m.withByte s.1 s.2 sentinel).controlBytes.length = m.controlBytes.length :=
    withByte_length _ _
  have hg₁ : g < (m.withByte s.1 s.2 sentinel).controlBytes.length := hlen.symm ▸ hg
  have hlive := isLive_partialHash hash k
  have hforget : Forgettable m s.1 s.2 := fun k' v' hat' _ => (hat'.bucket_unique hat).2.trans hv
  refine ⟨(hm.blank.withByte hat.lt hforget).put hg₁ hlive _, fun i d k' v' hat' hhome => ?_⟩
  rw [put_length, hlen] at hhome
  rcases (at_put hg₁ hj hlive).1 hat' with ⟨-, -, he⟩ | ⟨-, hat'⟩
  · exact (Prod.mk.inj he).2.symm.trans hv
  · exact hm.moving i d k' v' ((at_withByte hat.lt sentinel_not_live).1 hat').2 hhome

lemma MovingBlank.relocate {s : ℕ × Fin 16} (hm : m.MovingBlank hash prevSz)
    (hsize : ∃ e ≤ 31, m.controlBytes.length = 2 ^ e) (hn : m.controlBytes.length = n)
    (hrun : Map.relocate hash fuel n prevSz m s = .ok m') : m'.MovingBlank hash prevSz := by
  by_cases hmove : ∃ k v, m.At s.1 s.2 k v ∧ prevSz ≤ home hash k % n
  · obtain ⟨k, v, hat, hhome⟩ := hmove
    have hv := hm.moving _ _ _ _ hat (hn ▸ hhome)
    cases relocate_ok hsize hn hrun with
    | stays => exact hm
    | moves hat' hg hj =>
      obtain ⟨rfl, rfl⟩ := hat'.bucket_unique hat
      exact hm.move hat hv hg hj
  · push Not at hmove
    exact relocate_stays hmove hrun ▸ hm

lemma MovingBlank.relocate_all {todo : List (ℕ × Fin 16)} (hm : m.MovingBlank hash prevSz)
    (hsize : ∃ e ≤ 31, m.controlBytes.length = 2 ^ e) (hn : m.controlBytes.length = n)
    (hrun : todo.foldlM (Map.relocate hash fuel n prevSz) m = .ok m') :
    m'.MovingBlank hash prevSz := by
  induction todo generalizing m with
  | nil =>
    cases hrun
    exact hm
  | cons s todo ih =>
    rw [List.foldlM_cons] at hrun
    obtain ⟨m₁, hfirst, hrun⟩ := Run.bind_eq_ok.1 hrun
    have hlen := (relocate_ok hsize hn hfirst).length_eq
    exact ih (hm.relocate hsize hn hfirst) (hlen ▸ hsize) (hlen.trans hn) hrun

variable [Inhabited K]

/-- The new slots hold `V()`. -/
lemma Blank.grow (hm : m.Blank) (hle : m.controlBytes.length ≤ n)
    (hroom : m.buckets.length ≤ n * 16 % 2 ^ 32) : (m.grow n).Blank := by
  intro i c k v hfree hzero hbucket
  simp only [byte_grow hle] at hfree hzero
  by_cases hj : i * 16 + (c : ℕ) < m.buckets.length
  · rw [grow_buckets hroom hj] at hbucket
    exact hm i c k v hfree hzero hbucket
  · unfold Map.grow resizeList at hbucket
    dsimp only at hbucket
    rw [List.take_of_length_le hroom, List.getElem?_append_right (not_lt.1 hj)] at hbucket
    have he := List.eq_of_mem_replicate (List.mem_of_getElem? hbucket)
    exact congrArg Prod.snd he

lemma Blank.checkResize (hm : m.Blank) (htidy : m.Tidy hash)
    (hforget : m.loadFactor → MovesBlank hash m) (hrun : m.checkResize hash fuel = .ok m') :
    m'.Blank := by
  obtain ⟨-, rfl⟩ | ⟨hload, hsmall, hrun⟩ := checkResize_ok htidy hrun
  · exact hm
  · have hle : m.controlBytes.length ≤ 2 * m.controlBytes.length :=
      Nat.le_mul_of_pos_left _ two_pos
    obtain ⟨-, hroom, -⟩ := htidy.of_loadFactor hload
    have hgrow : (m.grow (2 * m.controlBytes.length)).MovingBlank hash m.controlBytes.length := by
      refine ⟨hm.grow hle ?_, fun i c k v hat hhome => ?_⟩
      · rw [Nat.mod_eq_of_lt (by omega)]
        omega
      · rw [grow_length hle] at hhome
        exact hforget hload i c k v ((at_grow hroom hsmall).1 hat) hhome
    exact (hgrow.relocate_all (htidy.grow hload hsmall).size (grow_length hle) hrun).blank

end resizing
/-! ### Runs -/

section runs
variable [DecidableEq K] [Inhabited K] [Inhabited V] {hash : K → UInt64} {fuel : ℕ}

/-- States reached by calls that leave no value but `V()` in the slots they free. -/
inductive Forgetting (hash : K → UInt64) : Map K V false → Prop
  | empty {cap : ℕ} {m : Map K V false} (hempty : ofCapacity hash cap = .ok m) : Forgetting hash m
  | call {m m' : Map K V false} (hm : Forgetting hash m) (fuel : ℕ) {op : Op K V}
      (hforget : Forgets hash m op) {r : Option V} (hcall : m.apply hash fuel op = .ok (m', r)) :
      Forgetting hash m'
  | removeAt {m m' : Map K V false} (hm : Forgetting hash m) {it : Iterator} (hit : it.OnEntry m)
      (hforget : Forgettable m (it.c / 16) ⟨it.c % 16, Nat.mod_lt _ (by decide)⟩)
      (hremove : it.remove m = .ok m') : Forgetting hash m'

omit [DecidableEq K] in
lemma ofCapacity_blank {cap : ℕ} {m : Map K V multiple} (hempty : ofCapacity hash cap = .ok m) :
    m.Blank := by
  unfold ofCapacity at hempty
  split_ifs at hempty
  obtain rfl : (⟨0, [], []⟩ : Map K V multiple).grow _ = m := Except.ok.inj hempty
  have hblank : (⟨0, [], []⟩ : Map K V multiple).Blank := fun i c k v _ _ h => nomatch h
  exact hblank.grow (Nat.zero_le _) (Nat.zero_le _)

variable {m m' : Map K V false}

lemma Blank.call {op : Op K V} {r : Option V} (hm : m.Blank) (htidy : m.Tidy hash)
    (hforget : Forgets hash m op) (hcall : m.apply hash fuel op = .ok (m', r)) : m'.Blank := by
  cases op with
  | insert k v =>
    obtain ⟨m₁, hresize, hwritten⟩ := insert_written hcall
    have hm₁ := (checkResize_entries htidy hresize).1
    exact (hm.checkResize htidy hforget hresize).written (hwritten hm₁.toSound)
  | upsert k stored =>
    obtain ⟨m₁, hresize, hwritten⟩ := upsert_written hcall
    have hm₁ := (checkResize_entries htidy hresize).1
    obtain ⟨v, old, hwritten⟩ := hwritten hm₁.toSound
    exact (hm.checkResize htidy hforget hresize).written hwritten
  | remove k =>
    obtain ⟨i, c, w, hat, -, rfl⟩ | ⟨-, rfl, -⟩ := Map.remove_ok htidy.toSound hcall
    · have hblank := hm.withByte hat.lt (hforget i c w hat)
      exact hblank
    · exact hm
  | clear =>
    obtain ⟨m₁, hclear, hcall⟩ := Run.bind_eq_ok.1 hcall
    cases hcall
    exact hm.swept (clear_ok htidy hclear).2.1 hforget

lemma Forgetting.reachable (hm : Forgetting hash m) : Reachable hash m := by
  induction hm with
  | empty hempty => exact .empty hempty
  | call _ fuel _ hcall ih => exact ih.call fuel _ hcall
  | removeAt _ hit _ hremove ih => exact ih.removeAt hit hremove

lemma Forgetting.blank (hm : Forgetting hash m) : m.Blank := by
  induction hm with
  | empty hempty => exact ofCapacity_blank hempty
  | call hm _ hforget hcall ih => exact ih.call hm.reachable.tidy hforget hcall
  | removeAt _ hit hforget hremove ih =>
    rw [hit.remove_ok hremove]
    have hblank := ih.withByte (lt_of_byte_ne_zero hit.live.1) hforget
    exact hblank

/-- The reference that `upsert` returns for an absent key is to a slot taken as it was. -/
lemma upsert_absent {k : K} {stored r : Option V}
    (hcall : m.apply hash fuel (.upsert k stored) = .ok (m', r)) :
    ∃ m₁, m.checkResize hash fuel = .ok m₁ ∧ (m₁.Sound hash → (∀ v, ¬ m₁.Holds k v) →
      ∃ i c k₀ w, Vacant hash m₁ k i c ∧ m₁.buckets[i * 16 + (c : ℕ)]? = some (k₀, w) ∧
        r = some w) := by
  obtain ⟨⟨m₂, j⟩, hupsert, hcall⟩ := Run.bind_eq_ok.1 hcall
  unfold upsert at hupsert
  obtain ⟨⟨m₃, j', fresh⟩, hplace, hupsert⟩ := Run.bind_eq_ok.1 hupsert
  obtain ⟨m₁, hresize, hplaced⟩ := place_ok hplace
  refine ⟨m₁, hresize, fun hm₁ habsent => ?_⟩
  obtain ⟨i, c, rfl, ⟨rfl, rfl, w, hat⟩ | ⟨rfl, rfl, hvacant⟩⟩ := hplaced hm₁
  · exact absurd ⟨i, c, hat⟩ (habsent w)
  · dsimp only at hupsert
    rw [if_pos rfl] at hupsert
    obtain ⟨⟨k₀, w⟩, hb, hupsert⟩ := Run.bind_eq_ok.1 hupsert
    obtain ⟨m₄, hset, hupsert⟩ := Run.bind_eq_ok.1 hupsert
    obtain ⟨hj, rfl⟩ := setBucket_eq_ok.1 hset
    cases hupsert
    refine ⟨i, c, k₀, w, hvacant, bucket_eq_ok.1 hb, ?_⟩
    obtain ⟨b, hb', hcall⟩ := Run.bind_eq_ok.1 hcall
    obtain rfl : b = (k, w) := Option.some.inj
      ((bucket_eq_ok.1 hb').symm.trans (List.getElem?_set_self hj))
    cases stored with
    | none => exact (Prod.mk.inj (Except.ok.inj hcall)).2.symm
    | some v =>
      obtain ⟨m₅, -, hcall⟩ := Run.bind_eq_ok.1 hcall
      exact (Prod.mk.inj (Except.ok.inj hcall)).2.symm

/-- In every run that frees no slot with another value where a new key could be put, `upsert`
of an absent key returns a reference to `V()`. -/
theorem upsert_absent_default (hm : Forgetting hash m) {k : K} (habsent : ∀ v, ¬ m.Holds k v)
    {stored r : Option V} (hforget : Forgets hash m (.upsert k stored))
    (hcall : m.apply hash fuel (.upsert k stored) = .ok (m', r)) : r = some default := by
  have htidy := hm.reachable.tidy
  obtain ⟨m₁, hresize, hplaced⟩ := upsert_absent hcall
  obtain ⟨htidy₁, hentries⟩ := checkResize_entries htidy hresize
  have habsent₁ : ∀ v, ¬ m₁.Holds k v := fun v hv =>
    habsent v (mem_entries.1 (hentries ▸ mem_entries.2 hv))
  obtain ⟨i, c, k₀, w, hvacant, hbucket, rfl⟩ := hplaced htidy₁.toSound habsent₁
  have hblank := hm.blank.checkResize htidy hforget hresize
  exact congrArg some
    (hblank i c k₀ w (firstFree_eq_some hvacant.free).1 hvacant.empty hbucket)

/-- A removed entry whose value was `V()`, and another key in its slot. -/
theorem upsert_absent_default_example : ∃ (m m' : Map ℕ ℕ false) (r : Option ℕ),
    m.apply (fun _ => 257) 2 (.upsert 2 (some 7)) = .ok (m', r) ∧ r = some default := by
  have hrun : (ofCapacity (fun _ => 257) 0 >>= fun m₀ : Map ℕ ℕ false =>
      m₀.apply (fun _ => 257) 2 (.insert 1 0) >>= fun x =>
        x.1.apply (fun _ => 257) 2 (.remove 1) >>= fun y =>
          y.1.apply (fun _ => 257) 2 (.upsert 2 (some 7)) >>= fun _ =>
            .ok (decide (m₀.loadFactor = false ∧ (∀ b ∈ x.1.buckets, b.2 = 0) ∧
              y.1.loadFactor = false ∧ ∀ b ∈ y.1.buckets, b.1 ≠ 2))) = .ok true := by
    decide +kernel
  obtain ⟨m₀, hempty, hrun⟩ := Run.bind_eq_ok.1 hrun
  obtain ⟨⟨m₁, r₁⟩, hinsert, hrun⟩ := Run.bind_eq_ok.1 hrun
  obtain ⟨⟨m₂, r₂⟩, hremove, hrun⟩ := Run.bind_eq_ok.1 hrun
  obtain ⟨⟨m₃, r₃⟩, hupsert, hrun⟩ := Run.bind_eq_ok.1 hrun
  obtain ⟨hload₀, hvalues, hload₂, hkeys⟩ := of_decide_eq_true (Except.ok.inj hrun)
  have hforget₀ : Forgets (fun _ => 257) m₀ (.insert 1 0) := fun hload =>
    absurd (hload₀.symm.trans hload) Bool.false_ne_true
  have hforget₁ : Forgets (fun _ => 257) m₁ (.remove 1) := fun i c v _ k w hat _ =>
    hvalues _ (List.mem_of_getElem? hat.2)
  have hforget₂ : Forgets (fun _ => 257) m₂ (.upsert 2 (some 7)) := fun hload =>
    absurd (hload₂.symm.trans hload) Bool.false_ne_true
  have hm := ((Forgetting.empty hempty).call 2 hforget₀ hinsert).call 2 hforget₁ hremove
  have habsent : ∀ v, ¬ m₂.Holds 2 v := fun v ⟨i, c, hat⟩ =>
    hkeys _ (List.mem_of_getElem? hat.2) rfl
  exact ⟨m₂, m₃, r₃, hupsert, upsert_absent_default hm habsent hforget₂ hupsert⟩

/-- The slot of the removed entry `(1, 5)` is taken for key 2. -/
theorem upsert_reveals_removed : ¬ ∀ (hash : ℕ → UInt64) (m m' : Map ℕ ℕ false) (k fuel : ℕ)
    (stored r : Option ℕ), Reachable hash m → (∀ v, ¬ m.Holds k v) →
    m.apply hash fuel (.upsert k stored) = .ok (m', r) → r = some default := by
  intro h
  have hrun : (ofCapacity (fun _ => 257) 0 >>= fun m₀ : Map ℕ ℕ false =>
      m₀.apply (fun _ => 257) 2 (.insert 1 5) >>= fun x =>
        x.1.apply (fun _ => 257) 2 (.remove 1) >>= fun y =>
          y.1.apply (fun _ => 257) 2 (.upsert 2 none) >>= fun z =>
            .ok (decide (∀ b ∈ y.1.buckets, b.1 ≠ 2), z.2)) = .ok (true, some 5) := by
    decide +kernel
  obtain ⟨m₀, hempty, hrun⟩ := Run.bind_eq_ok.1 hrun
  obtain ⟨⟨m₁, r₁⟩, hinsert, hrun⟩ := Run.bind_eq_ok.1 hrun
  obtain ⟨⟨m₂, r₂⟩, hremove, hrun⟩ := Run.bind_eq_ok.1 hrun
  obtain ⟨⟨m₃, r₃⟩, hupsert, hrun⟩ := Run.bind_eq_ok.1 hrun
  obtain ⟨hkeys, hr⟩ := Prod.mk.inj (Except.ok.inj hrun)
  have hreach := ((Reachable.empty hempty).call 2 _ hinsert).call 2 _ hremove
  have habsent : ∀ v, ¬ m₂.Holds 2 v := fun v ⟨i, c, hat⟩ =>
    of_decide_eq_true hkeys _ (List.mem_of_getElem? hat.2) rfl
  have hdefault := h _ m₂ m₃ 2 2 none r₃ hreach habsent hupsert
  exact absurd (hr.symm.trans hdefault) (by decide)

end runs
end CoreCommon.Map
