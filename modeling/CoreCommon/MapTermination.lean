import CoreCommon.MapCalls

/-! The probing loops of a `Map` without duplicate keys end as long as the table has an empty
byte. A resize always leaves some; otherwise only a new entry uses them up, since a removal
leaves a tombstone, and the load factor does not count tombstones. -/
namespace CoreCommon.Map
variable {K V : Type} {multiple : Bool}

/-- Some byte is empty. -/
def HasEmpty (m : Map K V multiple) : Prop := ∃ i < m.controlBytes.length, ∃ c, m.byte i c = 0

/-! ### The load factor -/

lemma toFloat_bounds (n : ℕ) : 7 * n ≤ 8 * toFloat n ∧ 8 * toFloat n ≤ 9 * n := by
  unfold toFloat
  split_ifs with hsmall
  · omega
  · have hne : n ≠ 0 := by
      rintro rfl
      exact hsmall (by norm_num)
    have hlog : 24 ≤ Nat.log2 n := (Nat.le_log2 hne).2 (not_lt.1 hsmall)
    have hpow : 2 ^ 23 * 2 ^ (Nat.log2 n - 23) ≤ n := by
      rw [← Nat.pow_add, show 23 + (Nat.log2 n - 23) = Nat.log2 n by omega]
      exact Nat.log2_self_le hne
    have hulp : 0 < 2 ^ (Nat.log2 n - 23) := Nat.two_pow_pos _
    dsimp only
    generalize 2 ^ (Nat.log2 n - 23) = ulp at hpow hulp
    have hdiv := Nat.div_add_mod' n ulp
    have hmod := Nat.mod_lt n hulp
    have hround : n / ulp ≤ NumberText.divRoundEven n ulp ∧
        NumberText.divRoundEven n ulp ≤ n / ulp + 1 := by
      unfold NumberText.divRoundEven
      dsimp only
      split_ifs <;> omega
    have hlo := Nat.mul_le_mul_right ulp hround.1
    have hhi := Nat.mul_le_mul_right ulp hround.2
    rw [Nat.add_mul, Nat.one_mul] at hhi
    omega

section ends
variable {hash : K → UInt64} {m m' : Map K V multiple} {k : K} {n fuel prevSz : ℕ}

lemma Tidy.light (hm : m.Tidy hash) (hload : m.loadFactor = false) :
    m.count ≤ 11 * m.controlBytes.length := by
  have hroom := hm.room
  have hbuckets := (toFloat_bounds m.buckets.length).2
  have hcount := (toFloat_bounds m.count).1
  have hle := of_decide_eq_false hload
  omega

/-! ### Single loops -/

lemma control_ends (m : Map K V multiple) (i : ℕ) : (m.control i).Ends := by
  unfold control
  cases m.controlBytes[i]? <;> exact nofun

lemma setControl_ends (m : Map K V multiple) (i : ℕ) (c : Fin 16) (b : UInt8) :
    (m.setControl i c b).Ends := (control_ends m i).bind fun _ _ => Run.ends_ok _

lemma bucket_ends (m : Map K V multiple) (j : ℕ) : (m.bucket j).Ends := by
  unfold bucket
  cases m.buckets[j]? <;> exact nofun

lemma setBucket_ends (m : Map K V multiple) (j : ℕ) (b : K × V) : (m.setBucket j b).Ends := by
  unfold setBucket
  split_ifs <;> exact nofun

lemma Probe.insert_ends (m : Map K V multiple) (p : Probe) : (p.insert m).Ends := by
  refine (control_ends m p.i).bind fun current _ => ?_
  cases firstFree current with
  | some c => exact (setControl_ends _ _ _ _).bind fun _ _ => Run.ends_ok _
  | none => exact Run.ends_ok _

lemma Probe.remove_ends (m : Map K V multiple) (p : Probe) : (p.remove m).Ends := by
  unfold Probe.remove
  split_ifs
  · exact (setControl_ends _ _ _ _).bind fun _ _ => Run.ends_ok _
  · exact nofun

lemma insertLoop_probe_ok (hsize : ∃ e ≤ 31, m.controlBytes.length = 2 ^ e)
    (hfuel : m.controlBytes.length ≤ fuel) {i : ℕ} (hi : i < m.controlBytes.length) {c : Fin 16}
    (hfree : ¬ IsLive (m.byte i c)) : ∃ r, insertLoop fuel m (m.probe (doHash hash k)) = .ok r := by
  obtain ⟨e, -, he⟩ := id hsize
  rw [he] at hi
  obtain ⟨j, hj, hat⟩ := exists_probeAt (home hash k) hi
  have hreach : ∃ j' < 0 + fuel, 0 ≤ j' ∧
      ∃ c, ¬ IsLive (m.byte (probeAt m.controlBytes.length (home hash k) j') c) := by
    refine ⟨j, by omega, Nat.zero_le _, c, ?_⟩
    rwa [he, hat]
  exact insertLoop_ends hsize (probe_onChain hash m k) hreach

lemma insertLoop_probe_ends (hsize : ∃ e ≤ 31, m.controlBytes.length = 2 ^ e)
    (hfuel : m.controlBytes.length ≤ fuel) {i : ℕ} (hi : i < m.controlBytes.length) {c : Fin 16}
    (hfree : ¬ IsLive (m.byte i c)) : (insertLoop fuel m (m.probe (doHash hash k))).Ends := by
  obtain ⟨r, hr⟩ := insertLoop_probe_ok hsize hfuel hi hfree
  exact hr ▸ Run.ends_ok r

/-! ### Resizing -/

lemma relocate_ends (hsize : ∃ e ≤ 31, m.controlBytes.length = 2 ^ e)
    (hfuel : m.controlBytes.length ≤ fuel) (s : ℕ × Fin 16) :
    (relocate hash fuel n prevSz m s).Ends := by
  refine (control_ends m s.1).bind fun current hcurrent => ?_
  obtain ⟨hs, rfl⟩ := lt_of_control hcurrent
  split_ifs
  · exact Run.ends_ok _
  · refine (bucket_ends m _).bind fun b _ => ?_
    dsimp only
    split_ifs
    · rw [setControl_eq hs, Run.bind_ok]
      have hlen : (m.withByte s.1 s.2 sentinel).controlBytes.length = m.controlBytes.length :=
        withByte_length _ _
      -- the slot that the entry leaves is free again
      have hfree : ¬ IsLive ((m.withByte s.1 s.2 sentinel).byte s.1 s.2) := by
        rw [byte_withByte hs, if_pos ⟨rfl, rfl⟩]
        exact sentinel_not_live
      rw [← hlen] at hsize hfuel hs
      exact (insertLoop_probe_ends hsize hfuel hs hfree).bind fun _ _ => setBucket_ends _ _ _
    · exact Run.ends_ok _

lemma relocate_all_ends {todo : List (ℕ × Fin 16)}
    (hsize : ∃ e ≤ 31, m.controlBytes.length = 2 ^ e) (hn : m.controlBytes.length = n)
    (hfuel : n ≤ fuel) : (todo.foldlM (relocate hash fuel n prevSz) m).Ends := by
  induction todo generalizing m with
  | nil => exact Run.ends_ok _
  | cons s todo ih =>
    rw [List.foldlM_cons]
    refine (relocate_ends hsize (hn ▸ hfuel) s).bind fun m₁ hfirst => ?_
    have hlen := (relocate_ok hsize hn hfirst).length_eq
    exact ih (hlen ▸ hsize) (hlen.trans hn)

lemma checkResize_ends [Inhabited K] [Inhabited V] (hm : m.Tidy hash)
    (hfuel : 2 * m.controlBytes.length ≤ fuel) : (m.checkResize hash fuel).Ends := by
  rw [checkResize_eq hm]
  split_ifs with hload
  · obtain ⟨-, -, e, he27, he⟩ := hm.of_loadFactor hload
    have hlen : (m.grow (2 * m.controlBytes.length)).controlBytes.length =
        2 * m.controlBytes.length := grow_length (Nat.le_mul_of_pos_left _ two_pos)
    exact relocate_all_ends ⟨e + 1, by omega, by rw [hlen, he, Nat.pow_succ, Nat.mul_comm]⟩ hlen
      hfuel
  · exact Run.ends_ok _

/-- The groups that a resize adds hold no tombstone, neither at first nor later. -/
def Unmarked (prevSz : ℕ) (m : Map K V multiple) : Prop :=
  ∀ i, prevSz ≤ i → ∀ c, m.byte i c ≠ sentinel

lemma Unmarked.relocated {s : ℕ × Fin 16} (h : Unmarked prevSz m) (hs : s.1 < prevSz)
    (hstep : Relocated hash prevSz s m m') : Unmarked prevSz m' := by
  cases hstep with
  | stays => exact h
  | moves hat hg hj hclaims =>
    intro i hi c
    rw [byte_put ((withByte_length (m := m) (i := s.1) _ _).symm ▸ hg), byte_withByte hat.lt]
    split_ifs with hnew hold
    · exact (isLive_partialHash hash _).2
    · omega
    · exact h i hi c

lemma relocate_all_unmarked {todo : List (ℕ × Fin 16)} (hm : m.Tidy hash)
    (h : Unmarked prevSz m) (hn : m.controlBytes.length = n) (htodo : ∀ s ∈ todo, s.1 < prevSz)
    (hrun : todo.foldlM (relocate hash fuel n prevSz) m = .ok m') :
    m'.Tidy hash ∧ Unmarked prevSz m' ∧ m'.controlBytes.length = n ∧ m'.count = m.count := by
  induction todo generalizing m with
  | nil =>
    cases hrun
    exact ⟨hm, h, hn, rfl⟩
  | cons s todo ih =>
    rw [List.foldlM_cons] at hrun
    obtain ⟨m₁, hfirst, hrun⟩ := Run.bind_eq_ok.1 hrun
    have hstep := relocate_ok hm.size hn hfirst
    have hcount : m₁.count = m.count := by cases hstep <;> rfl
    obtain ⟨hm', h', hn', hcount'⟩ := ih (hm.relocated hstep)
      (h.relocated (htodo s List.mem_cons_self) hstep) (hstep.length_eq.trans hn)
      (fun t ht => htodo t (List.mem_cons_of_mem _ ht)) hrun
    exact ⟨hm', h', hn', hcount'.trans hcount⟩

variable [Inhabited K] [Inhabited V]

/-- A completed resize leaves the invariants of the table as they were. -/
lemma Tidy.checkResize (hm : m.Tidy hash) (hrun : m.checkResize hash fuel = .ok m') :
    m'.Tidy hash ∧ m'.count = m.count ∧ (m.loadFactor = false ∧ m' = m ∨
      m'.controlBytes.length = 2 * m.controlBytes.length ∧ Unmarked m.controlBytes.length m') := by
  obtain ⟨hload, rfl⟩ | ⟨hload, hsmall, hrun⟩ := checkResize_ok hm hrun
  · exact ⟨hm, rfl, .inl ⟨hload, rfl⟩⟩
  · have hle : m.controlBytes.length ≤ 2 * m.controlBytes.length :=
      Nat.le_mul_of_pos_left _ two_pos
    have hfresh : Unmarked m.controlBytes.length (m.grow (2 * m.controlBytes.length)) := by
      intro i hi c
      rw [byte_grow hle, byte_of_le hi]
      decide
    obtain ⟨hm', hunmarked, hlen, hcount⟩ := relocate_all_unmarked (hm.grow hload hsmall) hfresh
      (grow_length hle) (fun s hs => mem_slots.1 hs) hrun
    exact ⟨hm', hcount, .inr ⟨hlen, hunmarked⟩⟩

end ends

/-! ### The invariant of a run -/

section invariant
variable {hash : K → UInt64} {m m' : Map K V multiple} {k : K} {fuel : ℕ}

/-- The bytes of an added group are too many for the entries there are. -/
lemma exists_empty_ne (hm : m.Tidy hash) {n : ℕ} (hn : 0 < n)
    (hlen : m.controlBytes.length = 2 * n) (hcount : m.count ≤ 11 * n + 1)
    (hunmarked : Unmarked n m) (s : ℕ × Fin 16) :
    ∃ i < m.controlBytes.length, ∃ c, (i, c) ≠ s ∧ m.byte i c = 0 := by
  by_contra hnone
  have hlive : ((Finset.Ico n (2 * n) ×ˢ Finset.univ).erase s) ⊆ m.liveSet := by
    rintro ⟨i, c⟩ hmem
    obtain ⟨hne, hmem⟩ := Finset.mem_erase.1 hmem
    obtain ⟨hi, hlt⟩ := Finset.mem_Ico.1 (Finset.mem_product.1 hmem).1
    exact mem_liveSet.2 ⟨fun h0 => hnone ⟨i, by rw [hlen]; exact hlt, c, hne, h0⟩, hunmarked i hi c⟩
  have hcard := Finset.card_le_card hlive
  have herase := Finset.pred_card_le_card_erase (s := Finset.Ico n (2 * n) ×ˢ Finset.univ) (a := s)
  rw [Finset.card_product, Nat.card_Ico, Finset.card_univ, Fintype.card_fin] at herase
  have hcounted := hm.counted
  omega

/-- The load of the map is bounded, and some byte is empty. -/
structure Open (hash : K → UInt64) (m : Map K V multiple) : Prop extends Tidy hash m where
  light : m.count ≤ 11 * m.controlBytes.length + 1
  hasEmpty : m.HasEmpty

/-- The search for `k` meets an entry of it. -/
def Findable (hash : K → UInt64) (m : Map K V multiple) (k : K) : Prop :=
  ∃ i c v, m.At i c k v ∧ m.Chained (home hash k) i

/-- A new entry leaves an empty byte: there is another one, or a tombstone before it in its
group. -/
def Spare (m : Map K V multiple) : Prop :=
  ∃ i < m.controlBytes.length, ∃ c, m.byte i c = 0 ∧
    ((∃ i' < m.controlBytes.length, ∃ c', (i', c') ≠ (i, c) ∧ m.byte i' c' = 0) ∨
      ∃ c' < c, m.byte i c' = sentinel)

/-- The call does not put a new entry, without a resize, in the last empty byte. -/
def Spares (hash : K → UInt64) (m : Map K V multiple) : Op K V → Prop
  | .insert k _ => m.loadFactor ∨ Findable hash m k ∨ m.Spare
  | .upsert k _ => m.loadFactor ∨ Findable hash m k ∨ m.Spare
  | .remove _ => True
  | .clear => True

lemma Open.reaches_empty (hm : m.Open hash) (k : K) : ∃ j < m.controlBytes.length, ∃ c,
    m.byte (probeAt m.controlBytes.length (home hash k) j) c = 0 := by
  obtain ⟨i, hi, c, hc⟩ := hm.hasEmpty
  obtain ⟨e, -, he⟩ := hm.size
  rw [he] at hi ⊢
  obtain ⟨j, hj, rfl⟩ := exists_probeAt (home hash k) hi
  exact ⟨j, hj, c, hc⟩

/-- The new entry goes elsewhere than into the last empty byte. -/
lemma Vacant.spare {i : ℕ} {c : Fin 16} (h : Vacant hash m k i c) (hspare : m.Spare) :
    ∃ i' < m.controlBytes.length, ∃ c', (i', c') ≠ (i, c) ∧ m.byte i' c' = 0 := by
  obtain ⟨i₀, hi₀, c₀, hzero, hother⟩ := hspare
  by_cases hsame : (i₀, c₀) = (i, c)
  · obtain ⟨rfl, rfl⟩ := Prod.mk.inj hsame
    rcases hother with hother | ⟨c', hlt, hs⟩
    · exact hother
    · exact absurd hs ((firstFree_eq_some h.free).2 c' hlt).2
  · exact ⟨i₀, hi₀, c₀, hsame, hzero⟩

lemma HasEmpty.wrote {v : V} {old : Option V} (h : m.HasEmpty)
    (hspare : Findable hash m k ∨ m.Spare) (hwrote : Wrote hash m k v old m') : m'.HasEmpty := by
  cases hwrote with
  | @again i c w hat =>
    obtain ⟨i₀, hi₀, c₀, hzero⟩ := h
    refine ⟨i₀, hi₀.trans_eq (put_length _ _).symm, c₀, ?_⟩
    rw [byte_put hat.lt, if_neg]
    · exact hzero
    · rintro ⟨rfl, rfl⟩
      exact hat.1.1 hzero
  | @fresh i c hvacant hj =>
    have hspare : m.Spare := by
      rcases hspare with ⟨i', c', w, hat, hchained⟩ | hspare
      · exact absurd hchained (hvacant.missed i' c' w hat)
      · exact hspare
    obtain ⟨i₀, hi₀, c₀, hne, hzero⟩ := hvacant.spare hspare
    refine ⟨i₀, hi₀.trans_eq (put_length _ (k, v)).symm, c₀, ?_⟩
    refine (byte_put hvacant.lt _ (k, v) i₀ c₀).trans ?_
    rw [if_neg fun heq => hne (Prod.ext heq.1 heq.2)]
    exact hzero

lemma Open.wrote {v : V} {old : Option V} (hm : m.Open hash)
    (hlight : m.count ≤ 11 * m.controlBytes.length) (hspare : Findable hash m k ∨ m.Spare)
    (hwrote : Wrote hash m k v old m') : m'.Open hash := by
  refine { hm.toTidy.wrote hwrote with light := ?_, hasEmpty := hm.hasEmpty.wrote hspare hwrote }
  cases hwrote with
  | again hat =>
    rw [put_count, put_length]
    exact hm.light
  | fresh hvacant hj =>
    refine (Nat.succ_le_succ hlight).trans_eq ?_
    exact congrArg (11 * · + 1) (put_length _ (k, v)).symm

lemma HasEmpty.swept (h : m.HasEmpty) (hswept : Swept m m') : m'.HasEmpty := by
  obtain ⟨i, hi, c, hzero⟩ := h
  refine ⟨i, hi.trans_eq hswept.length_eq.symm, c, ?_⟩
  rcases hswept.byte_eq i c with heq | ⟨-, hlive⟩
  · exact heq.trans hzero
  · exact absurd hzero hlive.1

variable [Inhabited K] [Inhabited V]

/-- A resize makes room for two more entries at least. -/
lemma Open.checkResize (hm : m.Open hash) (hrun : m.checkResize hash fuel = .ok m') :
    m'.Open hash ∧ m'.count ≤ 11 * m'.controlBytes.length ∧
      (m.loadFactor = false ∧ m' = m ∨ m'.Spare) := by
  obtain ⟨hm', hcount, ⟨hload, rfl⟩ | ⟨hlen, hunmarked⟩⟩ := hm.toTidy.checkResize hrun
  · exact ⟨hm, hm.toTidy.light hload, .inl ⟨hload, rfl⟩⟩
  · have hpos := hm.pos
    have hlight := hm.light
    have hempty := exists_empty_ne hm' hpos hlen (hcount.trans_le hlight) hunmarked
    obtain ⟨i, hi, c, -, hzero⟩ := hempty (0, 0)
    exact ⟨⟨hm', by omega, i, hi, c, hzero⟩, by omega, .inr ⟨i, hi, c, hzero, .inl (hempty (i, c))⟩⟩

end invariant

section calls
variable {hash : K → UInt64} {fuel : ℕ}

/-! ### Calls end -/

lemma clearLoop_ends {m : Map K V multiple} (hm : m.Tidy hash)
    (hfuel : m.controlBytes.length < fuel) {steps : ℕ} {it : Iterator} (hit : it.From m 0)
    (hsteps : m.buckets.length < it.c + steps) :
    (clearLoop fuel m.buckets.length steps m it).Ends := by
  induction steps generalizing m it with
  | zero =>
    have := hit.le_length
    omega
  | succ steps ih =>
    unfold clearLoop
    by_cases hend : it.c = m.buckets.length
    · rw [if_neg (not_not.2 hend)]
      exact Run.ends_ok _
    · rw [if_pos hend]
      have hlt := lt_of_le_of_ne hit.le_length hend
      obtain ⟨m₁, hremove, hm₁, hswept, hwalked, hnext⟩ := clear_step fuel hm hit hlt
      have hroom := hm₁.room.trans_le (Nat.mod_le _ _)
      rw [← hswept.buckets_eq] at hlt hsteps ⊢
      rw [← hswept.length_eq] at hfuel
      obtain ⟨it', hscan⟩ : ∃ it', m₁.scan fuel (it.c + 1) ((it.c + 1) / 16) = .ok it' :=
        Map.scan_ends hm₁.buckets_mod hroom hlt (by omega)
      rw [hremove, Run.bind_ok, hnext, hscan, Run.bind_ok]
      have hfrom := scan_ok hm₁.buckets_mod hlt hscan
      have hle := hfrom.le
      exact ih hm₁ hfuel (hfrom.advance hwalked) (by omega)

lemma Tidy.clear_ends {m : Map K V multiple} (hm : m.Tidy hash)
    (hfuel : 16 * m.controlBytes.length < fuel) : (m.clear fuel).Ends := by
  have hroom := hm.room.trans_le (Nat.mod_le _ _)
  obtain ⟨it, hbegin⟩ : ∃ it, m.scan fuel 0 (0 / 16) = .ok it :=
    Map.scan_ends hm.buckets_mod hroom (Nat.zero_le _) (by omega)
  have hfrom : it.From m 0 := scan_ok hm.buckets_mod (Nat.zero_le _) hbegin
  have hnext : m.begin fuel = .ok it := hbegin
  unfold clear
  rw [hnext, Run.bind_ok]
  exact clearLoop_ends hm (by omega) hfrom (by omega)

variable [DecidableEq K]

lemma Open.search_ends {m : Map K V multiple} (hm : m.Open hash)
    (hfuel : m.controlBytes.length ≤ fuel) (k : K) :
    ∃ r, m.search k fuel (m.probe (doHash hash k)) = .ok r := by
  obtain ⟨j, hj, hempty⟩ := hm.reaches_empty k
  exact Map.search_ends hm.toSound (probe_onChain hash m k) ⟨j, by omega, Nat.zero_le _, .inl hempty⟩

variable {m m' : Map K V false}

lemma Open.lookup_ends (hm : m.Open hash) (hfuel : m.controlBytes.length ≤ fuel) (k : K) :
    (m.lookup hash fuel k).Ends := by
  obtain ⟨⟨p, r⟩, hsearch⟩ := hm.search_ends hfuel k
  rw [lookup_eq, hsearch, Run.bind_ok]
  cases r with
  | some j => exact (bucket_ends m j).bind fun _ _ => Run.ends_ok _
  | none => exact Run.ends_ok _

lemma Open.remove_ends (hm : m.Open hash) (hfuel : m.controlBytes.length ≤ fuel) (k : K) :
    (m.remove hash fuel k).Ends := by
  obtain ⟨⟨p, r⟩, hsearch⟩ := hm.search_ends hfuel k
  unfold Map.remove
  rw [hsearch, Run.bind_ok]
  cases r with
  | some j =>
    exact (Probe.remove_ends m p).bind fun m₁ _ => (bucket_ends m₁ j).bind fun _ _ => Run.ends_ok _
  | none => exact Run.ends_ok _

variable [Inhabited K] [Inhabited V]

/-- In a state of a run the table, once resized, still has an empty byte for the search. -/
lemma Open.place_ends (hm : m.Open hash) (hfuel : 2 * m.controlBytes.length ≤ fuel) (k : K) :
    (m.place hash fuel k).Ends := by
  refine (checkResize_ends hm.toTidy hfuel).bind fun m₁ hresize => ?_
  obtain ⟨hm₁, -, -⟩ := hm.checkResize hresize
  have hlen : m₁.controlBytes.length ≤ fuel := by
    obtain ⟨-, -, ⟨-, rfl⟩ | ⟨hlen, -⟩⟩ := hm.toTidy.checkResize hresize <;> omega
  obtain ⟨⟨p, r⟩, hsearch⟩ := hm₁.search_ends hlen k
  dsimp only
  rw [if_neg Bool.false_ne_true, hsearch, Run.bind_ok]
  cases r with
  | some j => exact Run.ends_ok _
  | none =>
    refine (Probe.insert_ends m₁ p).bind fun ⟨m₂, j⟩ _ => ?_
    cases j with
    | some j => exact Run.ends_ok _
    | none => exact nofun

lemma Open.apply_ends (hm : m.Open hash) (hfuel : 16 * m.controlBytes.length < fuel)
    (op : Op K V) : (m.apply hash fuel op).Ends := by
  cases op with
  | insert k v =>
    refine (hm.place_ends (by omega) k).bind fun ⟨m₁, j, fresh⟩ _ => ?_
    dsimp only
    split_ifs
    · exact (setBucket_ends _ _ _).bind fun _ _ => Run.ends_ok _
    · exact (bucket_ends _ _).bind fun _ _ =>
        (setBucket_ends _ _ _).bind fun _ _ => Run.ends_ok _
  | upsert k stored =>
    refine Run.Ends.bind ?_ fun ⟨m₂, j⟩ _ => (bucket_ends _ _).bind fun b _ => ?_
    · refine (hm.place_ends (by omega) k).bind fun ⟨m₁, j, fresh⟩ _ => ?_
      dsimp only
      split_ifs
      · exact (bucket_ends _ _).bind fun _ _ =>
          (setBucket_ends _ _ _).bind fun _ _ => Run.ends_ok _
      · exact Run.ends_ok _
    · cases stored with
      | some v => exact (setBucket_ends _ _ _).bind fun _ _ => Run.ends_ok _
      | none => exact Run.ends_ok _
  | remove k => exact hm.remove_ends (by omega) k
  | clear => exact (hm.toTidy.clear_ends hfuel).bind fun _ _ => Run.ends_ok _

/-! ### Runs -/

lemma Tidy.apply {op : Op K V} {r : Option V} (hm : m.Tidy hash)
    (hrun : m.apply hash fuel op = .ok (m', r)) : m'.Tidy hash := by
  cases op with
  | insert k v =>
    obtain ⟨m₁, hresize, hwrote⟩ := insert_ok hrun
    have hm₁ := (hm.checkResize hresize).1
    exact hm₁.wrote (hwrote hm₁.toSound)
  | upsert k stored =>
    obtain ⟨m₁, hresize, hwrote⟩ := apply_upsert_ok hrun
    have hm₁ := (hm.checkResize hresize).1
    obtain ⟨w, old, -, -, hwrote⟩ := hwrote hm₁.toSound
    exact hm₁.wrote hwrote
  | remove k =>
    obtain ⟨i, c, w, hat, -, rfl⟩ | ⟨-, rfl, -⟩ := remove_ok hm.toSound hrun
    · exact hm.erase hat.1
    · exact hm
  | clear =>
    obtain ⟨m₁, hclear, hrun⟩ := Run.bind_eq_ok.1 hrun
    cases hrun
    exact (clear_ok hm hclear).1

omit [DecidableEq K] in
/-- One write into the resized table. -/
lemma Open.write {k : K} {v : V} {old : Option V} {m₁ : Map K V false} (hm : m.Open hash)
    (hspares : m.loadFactor ∨ Findable hash m k ∨ m.Spare)
    (hresize : m.checkResize hash fuel = .ok m₁) (hwrote : Wrote hash m₁ k v old m') :
    m'.Open hash := by
  obtain ⟨hm₁, hlight, ⟨hload, rfl⟩ | hspare⟩ := hm.checkResize hresize
  · rcases hspares with hload' | hspares
    · exact absurd (hload.symm.trans hload') Bool.false_ne_true
    · exact hm₁.wrote hlight hspares hwrote
  · exact hm₁.wrote hlight (.inr hspare) hwrote

/-- One call. -/
lemma Open.apply {op : Op K V} {r : Option V} (hm : m.Open hash) (hspares : Spares hash m op)
    (hrun : m.apply hash fuel op = .ok (m', r)) : m'.Open hash := by
  cases op with
  | insert k v =>
    obtain ⟨m₁, hresize, hwrote⟩ := insert_ok hrun
    exact hm.write hspares hresize (hwrote (hm.checkResize hresize).1.toSound)
  | upsert k stored =>
    obtain ⟨m₁, hresize, hwrote⟩ := apply_upsert_ok hrun
    obtain ⟨w, old, -, -, hwrote⟩ := hwrote (hm.checkResize hresize).1.toSound
    exact hm.write hspares hresize hwrote
  | remove k =>
    obtain ⟨i, c, w, hat, -, rfl⟩ | ⟨-, rfl, -⟩ := remove_ok hm.toSound hrun
    · have hswept : Swept m (m.withByte i c sentinel) := by
        refine ⟨withByte_length _ _, rfl, fun i' c' => ?_⟩
        rw [byte_withByte hat.lt]
        split_ifs with hsame
        · obtain ⟨rfl, rfl⟩ := hsame
          exact .inr ⟨rfl, hat.1⟩
        · exact .inl rfl
      have hlen : (m.withByte i c sentinel).controlBytes.length = m.controlBytes.length :=
        withByte_length _ _
      have hempty : (m.withByte i c sentinel).HasEmpty := hm.hasEmpty.swept hswept
      refine ⟨hm.erase hat.1, (Nat.sub_le _ _).trans (hm.light.trans_eq ?_), hempty⟩
      exact congrArg (11 * · + 1) hlen.symm
    · exact hm
  | clear =>
    obtain ⟨m₁, hclear, hrun⟩ := Run.bind_eq_ok.1 hrun
    obtain ⟨hm', hswept, hnone⟩ := clear_ok hm.toTidy hclear
    cases hrun
    have hcount : m'.count = 0 := by
      rw [hm'.counted, Finset.card_eq_zero, Finset.eq_empty_iff_forall_notMem]
      exact fun s hs => hnone _ _ (mem_liveSet.1 hs)
    exact ⟨hm', hcount.trans_le (Nat.zero_le _), hm.hasEmpty.swept hswept⟩

lemma Steps.tidy {cond : Map K V false → Op K V → Prop} {l : List (Op K V × Option V)}
    (hm : m.Tidy hash) (hrun : Steps hash cond m l m') : m'.Tidy hash := by
  induction hrun with
  | nil => exact hm
  | cons _ fuel hcall _ ih => exact ih (hm.apply hcall)

lemma Steps.open_ {l : List (Op K V × Option V)} (hm : m.Open hash)
    (hrun : Steps hash (Spares hash) m l m') : m'.Open hash := by
  induction hrun with
  | nil => exact hm
  | cons hspares fuel hcall _ ih => exact ih (hm.apply hspares hcall)

/-- Runs from an empty map of any capacity in which no call uses up the last empty byte: each
probe sequence reaches a group with an empty byte, and every call ends. -/
theorem steps_end {cap : ℕ} {m₀ : Map K V false} (hempty : ofCapacity hash cap = .ok m₀)
    {l : List (Op K V × Option V)} (hrun : Steps hash (Spares hash) m₀ l m) :
    (∀ k, ∃ j c, m.byte (probeAt m.controlBytes.length (home hash k) j) c = 0) ∧
    ∃ n, ∀ fuel ≥ n, (∀ k, (m.lookup hash fuel k).Ends) ∧
      ∀ op, (m.apply hash fuel op).Ends := by
  obtain ⟨htidy, hbyte⟩ := ofCapacity_ok hempty
  have hcount : m₀.count = 0 := by
    rw [htidy.counted, Finset.card_eq_zero, Finset.eq_empty_iff_forall_notMem]
    exact fun s hs => (mem_liveSet.1 hs).1 (hbyte _ _)
  have hopen₀ : m₀.Open hash :=
    ⟨htidy, hcount.trans_le (Nat.zero_le _), 0, htidy.pos, 0, hbyte _ _⟩
  have hm := hrun.open_ hopen₀
  refine ⟨fun k => ?_, 16 * m.controlBytes.length + 1, fun fuel hfuel => ⟨fun k => ?_, ?_⟩⟩
  · obtain ⟨j, -, hc⟩ := hm.reaches_empty k
    exact ⟨j, hc⟩
  · exact hm.lookup_ends (by omega) k
  · exact hm.apply_ends (by omega)

/-- One insertion. -/
theorem steps_end_example : ∃ m : Map ℕ ℕ false,
    (∀ k : ℕ, ∃ j c, m.byte (probeAt m.controlBytes.length (home (fun _ => 257) k) j) c = 0) ∧
    ∃ n, ∀ fuel ≥ n, (∀ k, (m.lookup (fun _ => 257) fuel k).Ends) ∧
      ∀ op, (m.apply (fun _ => 257) fuel op).Ends := by
  let m₀ : Map ℕ ℕ false := ⟨0, [fun _ => 0, fun _ => 0], List.replicate 32 (0, 0)⟩
  have hempty : ofCapacity (fun _ => 257) 0 = .ok m₀ := rfl
  have hcall : m₀.apply (fun _ => 257) 2 (.insert 1 5) =
      .ok ((m₀.put 1 0 1 (1, 5)).withCount 1, none) := rfl
  have hspares : Spares (fun _ => 257) m₀ (.insert 1 5) :=
    .inr (.inr ⟨0, by decide, 0, rfl, .inl ⟨1, by decide, 0, by decide, rfl⟩⟩)
  exact ⟨_, steps_end hempty (.cons hspares 2 hcall (.nil _))⟩

/-- Sixteen keys fill one group and are removed again, sixteen more fill the other: there are
sixteen entries in 32 bytes, but none is empty, and the search of another key never ends. -/
theorem tombstones_stall_lookup : ¬ ∀ (hash : ℕ → UInt64) (cap : ℕ) (m₀ m : Map ℕ ℕ false)
    (l : List (Op ℕ ℕ × Option ℕ)), ofCapacity hash cap = .ok m₀ →
    Steps hash (fun _ _ => True) m₀ l m → ∀ k, ∃ fuel, (m.lookup hash fuel k).Ends := by
  intro h
  let hash : ℕ → UInt64 := fun k => if k < 16 then 1 else 257
  let l : List (Op ℕ ℕ × Option ℕ) := (List.range 16).map (fun k => (.insert k k, none)) ++
    (List.range 16).map (fun k => (.remove k, some k)) ++
    (List.range 16).map fun k => (.insert (k + 16) k, none)
  let full : Map ℕ ℕ false → Bool := fun m =>
    decide (m.controlBytes.length = 2) && m.controlBytes.all (fun b => decide (∀ c, b c ≠ 0)) &&
      m.buckets.all fun b => decide (b.1 ≠ 40)
  have hrun : (ofCapacity hash 0 >>= fun m₀ : Map ℕ ℕ false =>
      m₀.replay hash 3 l >>= fun m => if full m then .ok () else .error .assertion) = .ok () := by
    decide +kernel
  obtain ⟨m₀, hempty, hrun⟩ := Run.bind_eq_ok.1 hrun
  obtain ⟨m, hreplay, hrun⟩ := Run.bind_eq_ok.1 hrun
  have hsteps := Steps.of_replay hreplay
  have hm := hsteps.tidy (ofCapacity_ok hempty).1
  have hfull : full m = true := by
    by_contra hnot
    rw [if_neg hnot] at hrun
    cases hrun
  simp only [full, Bool.and_eq_true, decide_eq_true_eq, List.all_eq_true] at hfull
  obtain ⟨⟨hlen, hbytes⟩, hkeys⟩ := hfull
  obtain ⟨fuel, hends⟩ := h hash 0 m₀ m l hempty hsteps 40
  refine hends ?_
  rw [lookup_eq, search_diverges hm.toSound (fun i hi c => ?_) (fun i c v hat => ?_) fuel
    (probe_onChain hash m 40)]
  · rfl
  · have hget : m.byte i = m.controlBytes[i] := by
      funext d
      simp [byte, List.getD_eq_getElem?_getD, List.getElem?_eq_getElem hi]
    rw [hget]
    exact hbytes _ (List.getElem_mem hi) c
  · exact hkeys _ (List.mem_of_getElem? hat.2) rfl

end calls
end CoreCommon.Map
