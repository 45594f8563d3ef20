import CoreCommon.MapTable
import CoreCommon.TriangularProbe

/-! What the loops over a table do: searches, claims of free slots, the walk of `clear`. -/
namespace CoreCommon.Map
variable {K V : Type} {multiple : Bool}

/-! ### Probing -/

/-- No group before position `j` of the probe sequence has an empty byte. -/
def Passed (m : Map K V multiple) (start j : ℕ) : Prop :=
  ∀ j' < j, ∀ c, m.byte (probeAt m.controlBytes.length start j') c ≠ 0

/-- Group `i` comes up on the probe sequence before any group behind an empty byte. -/
def Chained (m : Map K V multiple) (start i : ℕ) : Prop :=
  ∃ j, i = probeAt m.controlBytes.length start j ∧ m.Passed start j

/-- The probe of key `k` at position `j`, before its group is searched. -/
structure Probe.OnChain (hash : K → UInt64) (n : ℕ) (k : K) (j : ℕ) (p : Probe) : Prop where
  i_eq : p.i = probeAt n (home hash k) j
  probeI_eq : p.probeI = j % 2 ^ 32
  c_eq : p.c = 0
  target_eq : p.target = partialHash hash k

/-- `q` is `p` after a search of its group. -/
structure Probe.Along (p q : Probe) : Prop where
  i_eq : q.i = p.i
  probeI_eq : q.probeI = p.probeI
  target_eq : q.target = p.target

section probing
variable {hash : K → UInt64} {m : Map K V multiple} {k : K} {j : ℕ} {p : Probe}

lemma probe_onChain (hash : K → UInt64) (m : Map K V multiple) (k : K) :
    (m.probe (doHash hash k)).OnChain hash m.controlBytes.length k 0 where
  i_eq := rfl
  probeI_eq := rfl
  c_eq := rfl
  target_eq := rfl

lemma Probe.OnChain.next (hdvd : m.controlBytes.length ∣ 2 ^ 32)
    (hp : p.OnChain hash m.controlBytes.length k j) {q : Probe} (hpq : p.Along q) :
    (q.next m).OnChain hash m.controlBytes.length k (j + 1) where
  i_eq := by
    rw [← probeAt_succ hdvd, ← hp.i_eq, ← hp.probeI_eq, ← hpq.i_eq, ← hpq.probeI_eq]
    rfl
  probeI_eq := by
    show (q.probeI + 1) % 2 ^ 32 = _
    rw [hpq.probeI_eq, hp.probeI_eq, Nat.mod_add_mod]
  c_eq := rfl
  target_eq := hpq.target_eq.trans hp.target_eq

variable [DecidableEq K]

lemma matchFrom_spec {i : ℕ} {current : ControlBytes} {b : UInt8} (cs : List (Fin 16))
    (hstored : ∀ c, current c = b → ∃ e, m.buckets[i * 16 + (c : ℕ)]? = some e) :
    ∃ r, matchFrom m k i current b cs = .ok r ∧
      (∀ c, r = some c → current c = b ∧ ∃ v, m.buckets[i * 16 + (c : ℕ)]? = some (k, v)) ∧
      (r = none → ∀ c ∈ cs, current c = b → ∀ v, m.buckets[i * 16 + (c : ℕ)]? ≠ some (k, v)) := by
  induction cs with
  | nil => exact ⟨none, rfl, nofun, fun _ c hc => nomatch hc⟩
  | cons c cs ih =>
    obtain ⟨r, hr, hsome, hnone⟩ := ih
    unfold matchFrom
    by_cases hc : current c = b
    · obtain ⟨e, he⟩ := hstored c hc
      rw [if_pos hc, bucket_eq_ok.2 he, Run.bind_ok]
      by_cases hk : e.1 = k
      · rw [if_pos hk]
        refine ⟨some c, rfl, ?_, nofun⟩
        rintro _ ⟨⟩
        exact ⟨hc, e.2, hk ▸ he⟩
      · rw [if_neg hk]
        refine ⟨r, hr, hsome, fun hrn d hd hdb v hv => ?_⟩
        rcases List.mem_cons.1 hd with rfl | hd
        · exact hk (congrArg Prod.fst (Option.some.inj (he.symm.trans hv)))
        · exact hnone hrn d hd hdb v hv
    · rw [if_neg hc]
      refine ⟨r, hr, hsome, fun hrn d hd hdb => ?_⟩
      rcases List.mem_cons.1 hd with rfl | hd
      · exact absurd hdb hc
      · exact hnone hrn d hd hdb

/-- A group's search finds an entry of the key if the group has one. -/
lemma match_spec (hm : m.Sound hash)
    (hp : p.OnChain hash m.controlBytes.length k j) :
    ∃ p' res, p.match_ m k = .ok (p', res) ∧ p.Along p' ∧
      res.cont = decide (∀ c, m.byte p.i c ≠ 0) ∧
      ((∃ (c : Fin 16) (v : V), p'.c = c ∧ res.bucket = some (p.i * 16 + c) ∧ m.At p.i c k v) ∨
        (res.bucket = none ∧ ∀ c v, ¬ m.At p.i c k v)) := by
  have hi : p.i < m.controlBytes.length := by
    rw [hp.i_eq]
    exact probeAt_lt hm.pos _ _
  have hlive : IsLive p.target := by
    rw [hp.target_eq]
    exact isLive_partialHash hash k
  have hstored : ∀ c, m.byte p.i c = p.target → ∃ e, m.buckets[p.i * 16 + (c : ℕ)]? = some e :=
    fun c hc => hm.stored p.i c (by rw [hc]; exact hlive)
  obtain ⟨r, hr, hsome, hnone⟩ := matchFrom_spec (k := k) ((List.finRange 16).drop p.c) hstored
  unfold Probe.match_
  rw [control_eq hi, Run.bind_ok, if_pos hp.c_eq, hr, Run.bind_ok]
  cases r with
  | some c =>
    obtain ⟨hc, v, hv⟩ := hsome c rfl
    exact ⟨_, _, rfl, ⟨rfl, rfl, rfl⟩, rfl, .inl ⟨c, v, rfl, rfl, by rw [hc]; exact hlive, hv⟩⟩
  | none =>
    refine ⟨_, _, rfl, ⟨rfl, rfl, rfl⟩, rfl, .inr ⟨rfl, fun c v hat => ?_⟩⟩
    refine hnone rfl c ?_ ?_ v hat.2
    · rw [hp.c_eq]
      exact List.mem_finRange c
    · rw [hm.target_eq _ _ _ _ hat, hp.target_eq]

/-- How a search ends: at an entry of the key, or in a group with an empty byte and no such
entry before or in it. -/
def Searched (hash : K → UInt64) (m : Map K V multiple) (k : K) (p : Probe) (r : Option ℕ) :
    Prop :=
  ∃ j, p.i = probeAt m.controlBytes.length (home hash k) j ∧ m.Passed (home hash k) j ∧
    p.target = partialHash hash k ∧
    ((∃ (c : Fin 16) (v : V), p.c = c ∧ r = some (p.i * 16 + c) ∧ m.At p.i c k v) ∨
      (r = none ∧ (∃ c, m.byte p.i c = 0) ∧
        ∀ j' ≤ j, ∀ c v, ¬ m.At (probeAt m.controlBytes.length (home hash k) j') c k v))

lemma search_ok (hm : m.Sound hash) {fuel : ℕ}
    (hp : p.OnChain hash m.controlBytes.length k j)
    (hpassed : m.Passed (home hash k) j)
    (hmiss : ∀ j' < j, ∀ c v, ¬ m.At (probeAt m.controlBytes.length (home hash k) j') c k v)
    {p' : Probe} {r : Option ℕ} (hrun : m.search k fuel p = .ok (p', r)) :
    Searched hash m k p' r := by
  induction fuel generalizing p j with
  | zero => cases hrun
  | succ fuel ih =>
    obtain ⟨q, res, hq, hpq, hcont, hres⟩ := match_spec hm hp
    unfold search at hrun
    rw [hq, Run.bind_ok] at hrun
    dsimp only at hrun
    have hqj : q.i = probeAt m.controlBytes.length (home hash k) j :=
      hpq.i_eq.trans hp.i_eq
    rcases hres with ⟨c, v, hc, hb, hat⟩ | ⟨hb, hno⟩
    · rw [hb, if_pos Option.isSome_some] at hrun
      obtain ⟨rfl, rfl⟩ := Prod.mk.inj (Except.ok.inj hrun)
      rw [← hpq.i_eq] at hat ⊢
      exact ⟨j, hqj, hpassed, hpq.target_eq.trans hp.target_eq, .inl ⟨c, v, hc, rfl, hat⟩⟩
    · rw [hp.i_eq] at hno hcont
      rw [hb, if_neg (by simp)] at hrun
      have hmiss' : ∀ j' < j + 1, ∀ c v,
          ¬ m.At (probeAt m.controlBytes.length (home hash k) j') c k v := by
        intro j' hj'
        rcases Nat.lt_succ_iff_lt_or_eq.1 hj' with hlt | rfl
        · exact hmiss j' hlt
        · exact hno
      by_cases hfull : ∀ c, m.byte (probeAt m.controlBytes.length (home hash k) j) c ≠ 0
      · rw [hcont, if_pos (decide_eq_true hfull)] at hrun
        refine ih (hp.next hm.dvd hpq) (fun j' hj' => ?_) hmiss' hrun
        rcases Nat.lt_succ_iff_lt_or_eq.1 hj' with hlt | rfl
        · exact hpassed j' hlt
        · exact hfull
      · rw [hcont, if_neg (by rwa [decide_eq_true_eq])] at hrun
        obtain ⟨rfl, rfl⟩ := Prod.mk.inj (Except.ok.inj hrun)
        push Not at hfull
        refine ⟨j, hqj, hpassed, hpq.target_eq.trans hp.target_eq, .inr ⟨rfl, ?_, ?_⟩⟩
        · rw [hqj]
          exact hfull
        · exact fun j' hj' => hmiss' j' (Nat.lt_succ_of_le hj')

/-- A search ends by the first group on its way that has an empty byte or an entry of the key. -/
lemma search_ends (hm : m.Sound hash) {fuel : ℕ}
    (hp : p.OnChain hash m.controlBytes.length k j)
    (hstop : ∃ j' < j + fuel, j ≤ j' ∧
      ((∃ c, m.byte (probeAt m.controlBytes.length (home hash k) j') c = 0) ∨
        ∃ c v, m.At (probeAt m.controlBytes.length (home hash k) j') c k v)) :
    ∃ r, m.search k fuel p = .ok r := by
  induction fuel generalizing p j with
  | zero => obtain ⟨j', hlt, hle, -⟩ := hstop; omega
  | succ fuel ih =>
    obtain ⟨q, res, hq, hpq, hcont, hres⟩ := match_spec hm hp
    unfold search
    rw [hq, Run.bind_ok]
    dsimp only
    rcases hres with ⟨c, v, -, hb, -⟩ | ⟨hb, hno⟩
    · rw [hb]
      exact ⟨_, rfl⟩
    · rw [hb, if_neg (by simp), hcont]
      by_cases hfull : ∀ c, m.byte p.i c ≠ 0
      · rw [if_pos (decide_eq_true hfull)]
        obtain ⟨j', hlt, hle, hstop⟩ := hstop
        refine ih (hp.next hm.dvd hpq) ⟨j', by omega, ?_, hstop⟩
        rcases Nat.lt_or_eq_of_le hle with hlt' | rfl
        · exact hlt'
        · rw [hp.i_eq] at hfull hno
          rcases hstop with ⟨c, hc⟩ | ⟨c, v, hat⟩
          · exact absurd hc (hfull c)
          · exact absurd hat (hno c v)
      · rw [if_neg (by rwa [decide_eq_true_eq])]
        exact ⟨_, rfl⟩

/-- Without an empty byte the search of an absent key never ends. -/
lemma search_diverges (hm : m.Sound hash)
    (hfull : ∀ i < m.controlBytes.length, ∀ c, m.byte i c ≠ 0)
    (habsent : ∀ i c v, ¬ m.At i c k v) (fuel : ℕ)
    (hp : p.OnChain hash m.controlBytes.length k j) :
    m.search k fuel p = .error .diverges := by
  induction fuel generalizing p j with
  | zero => rfl
  | succ fuel ih =>
    obtain ⟨q, res, hq, hpq, hcont, hres⟩ := match_spec hm hp
    have hi : p.i < m.controlBytes.length := by
      rw [hp.i_eq]
      exact probeAt_lt hm.pos _ _
    unfold search
    rw [hq, Run.bind_ok]
    dsimp only
    rcases hres with ⟨c, v, -, -, hat⟩ | ⟨hb, -⟩
    · exact absurd hat (habsent _ _ _)
    · rw [hb, if_neg (by simp), hcont, if_pos (decide_eq_true (hfull _ hi))]
      exact ih (hp.next hm.dvd hpq)

/-- The loop of a `FindIterator` is that search, one step further when it fails. -/
lemma findLoop_eq (m : Map K V multiple) (k : K) (fuel : ℕ) (p : Probe) :
    m.findLoop k fuel p = m.search k fuel p >>= fun r =>
      .ok ⟨if r.2.isSome then r.1 else r.1.next m, r.2⟩ := by
  induction fuel generalizing p with
  | zero => rfl
  | succ fuel ih =>
    unfold findLoop search
    cases hq : p.match_ m k with
    | error e => rfl
    | ok q =>
      obtain ⟨q, cont, bucket⟩ := q
      simp only [Run.bind_ok]
      cases bucket with
      | some b => rfl
      | none =>
        cases cont with
        | true => exact ih _
        | false => rfl

end probing

/-! ### Free slots -/

section free
variable {hash : K → UInt64} {m : Map K V multiple} {k : K} {j : ℕ} {p : Probe}

lemma firstFree_eq_some {current : ControlBytes} {c : Fin 16} (h : firstFree current = some c) :
    ¬ IsLive (current c) ∧ ∀ d < c, IsLive (current d) := by
  obtain ⟨hc, i, hi, hic, hbefore⟩ := List.find?_eq_some_iff_getElem.1 h
  rw [List.getElem_finRange] at hic
  have hci : (c : ℕ) = i := by rw [← hic]; rfl
  refine ⟨not_isLive.2 (by simpa [or_comm] using hc), fun d hd => ?_⟩
  have hdi : (d : ℕ) < i := hci ▸ hd
  have hfree := hbefore d hdi
  rw [List.getElem_finRange] at hfree
  change (!decide (current d = 0 ∨ current d = sentinel)) = true at hfree
  exact ⟨fun h0 => by simp [h0] at hfree, fun hs => by simp [hs] at hfree⟩

lemma firstFree_eq_none {current : ControlBytes} (h : firstFree current = none) (c : Fin 16) :
    IsLive (current c) := by
  have hc := List.find?_eq_none.1 h c (List.mem_finRange c)
  exact ⟨fun h0 => by simp [h0] at hc, fun hs => by simp [hs] at hc⟩

lemma insert_of_free (hi : p.i < m.controlBytes.length) {c : Fin 16}
    (hc : firstFree (m.byte p.i) = some c) :
    p.insert m = .ok (m.withByte p.i c p.target, some (p.i * 16 + c)) := by
  unfold Probe.insert
  rw [control_eq hi, Run.bind_ok, hc]
  dsimp only
  rw [setControl_eq hi, Run.bind_ok]

lemma insert_of_full (hi : p.i < m.controlBytes.length) (hfull : firstFree (m.byte p.i) = none) :
    p.insert m = .ok (m, none) := by
  unfold Probe.insert
  rw [control_eq hi, Run.bind_ok, hfull]

/-- The slot that a loop of `insert` claims for `k`: the first free one of the first group on
the way that is not full. -/
structure Claims (hash : K → UInt64) (m : Map K V multiple) (k : K) (i : ℕ) (c : Fin 16) :
    Prop where
  free : firstFree (m.byte i) = some c
  onChain : ∃ j, i = probeAt m.controlBytes.length (home hash k) j ∧
    ∀ j' < j, ∀ d, IsLive (m.byte (probeAt m.controlBytes.length (home hash k) j') d)

lemma Claims.chained {i : ℕ} {c : Fin 16} (h : Claims hash m k i c) :
    m.Chained (home hash k) i := by
  obtain ⟨j, hj, hfull⟩ := h.onChain
  exact ⟨j, hj, fun j' hj' d => (hfull j' hj' d).1⟩

lemma insertLoop_ok (hsize : ∃ e ≤ 31, m.controlBytes.length = 2 ^ e) {fuel : ℕ}
    (hp : p.OnChain hash m.controlBytes.length k j)
    (hfull : ∀ j' < j, ∀ d, IsLive (m.byte (probeAt m.controlBytes.length (home hash k) j') d))
    {m' : Map K V multiple} {b : ℕ} (hrun : insertLoop fuel m p = .ok (m', b)) :
    ∃ i c, i < m.controlBytes.length ∧ Claims hash m k i c ∧
      m' = m.withByte i c (partialHash hash k) ∧ b = i * 16 + (c : ℕ) := by
  induction fuel generalizing p j with
  | zero => cases hrun
  | succ fuel ih =>
    have hi : p.i < m.controlBytes.length := by
      rw [hp.i_eq]
      exact probeAt_lt (length_pos hsize) _ _
    unfold insertLoop at hrun
    cases hc : firstFree (m.byte p.i) with
    | some c =>
      rw [insert_of_free hi hc, Run.bind_ok] at hrun
      obtain ⟨rfl, rfl⟩ := Prod.mk.inj (Except.ok.inj hrun)
      refine ⟨p.i, c, hi, ⟨hc, j, hp.i_eq, hfull⟩, ?_, rfl⟩
      rw [hp.target_eq]
    | none =>
      rw [insert_of_full hi hc, Run.bind_ok] at hrun
      refine ih (hp.next (length_dvd hsize) ⟨rfl, rfl, rfl⟩) (fun j' hj' d => ?_) hrun
      rcases Nat.lt_succ_iff_lt_or_eq.1 hj' with hlt | rfl
      · exact hfull j' hlt d
      · rw [← hp.i_eq]
        exact firstFree_eq_none hc d

lemma insertLoop_ends (hsize : ∃ e ≤ 31, m.controlBytes.length = 2 ^ e) {fuel : ℕ}
    (hp : p.OnChain hash m.controlBytes.length k j)
    (hfree : ∃ j' < j + fuel, j ≤ j' ∧
      ∃ c, ¬ IsLive (m.byte (probeAt m.controlBytes.length (home hash k) j') c)) :
    ∃ r, insertLoop fuel m p = .ok r := by
  induction fuel generalizing p j with
  | zero => obtain ⟨j', hlt, hle, -⟩ := hfree; omega
  | succ fuel ih =>
    have hi : p.i < m.controlBytes.length := by
      rw [hp.i_eq]
      exact probeAt_lt (length_pos hsize) _ _
    unfold insertLoop
    cases hc : firstFree (m.byte p.i) with
    | some c =>
      rw [insert_of_free hi hc, Run.bind_ok]
      exact ⟨_, rfl⟩
    | none =>
      rw [insert_of_full hi hc, Run.bind_ok]
      obtain ⟨j', hlt, hle, c, hlive⟩ := hfree
      refine ih (hp.next (length_dvd hsize) ⟨rfl, rfl, rfl⟩) ⟨j', by omega, ?_, c, hlive⟩
      rcases Nat.lt_or_eq_of_le hle with hlt' | rfl
      · exact hlt'
      · rw [hp.i_eq] at hc
        exact absurd (firstFree_eq_none hc c) hlive

end free

/-! ### Walking the slots -/

/-- The byte at index `q` of the walk over all groups. -/
def byteAt (m : Map K V multiple) (q : ℕ) : UInt8 :=
  m.byte (q / 16) ⟨q % 16, Nat.mod_lt _ (by decide)⟩

lemma byteAt_slot (m : Map K V multiple) (i : ℕ) (c : Fin 16) :
    m.byteAt (i * 16 + (c : ℕ)) = m.byte i c := by
  have hi : (i * 16 + (c : ℕ)) / 16 = i := by omega
  have hc : (⟨(i * 16 + (c : ℕ)) % 16, Nat.mod_lt _ (by decide)⟩ : Fin 16) = c :=
    Fin.ext (show (i * 16 + (c : ℕ)) % 16 = c by omega)
  rw [byteAt, hi, hc]

lemma find_from {p : Fin 16 → Bool} {r : ℕ} :
    (∀ d, ((List.finRange 16).drop r).find? p = some d →
      r ≤ d ∧ p d ∧ ∀ d' : Fin 16, r ≤ d' → d' < d → p d' = false) ∧
    (((List.finRange 16).drop r).find? p = none → ∀ d : Fin 16, r ≤ d → p d = false) := by
  have hget : ∀ (x : ℕ) (hx : x < ((List.finRange 16).drop r).length),
      ((((List.finRange 16).drop r)[x] : Fin 16) : ℕ) = r + x := by
    intro x hx
    rw [List.getElem_drop, List.getElem_finRange]
    rfl
  have hmem : ∀ d : Fin 16, r ≤ (d : ℕ) → ∃ x, ∃ hx : x < ((List.finRange 16).drop r).length,
      ((List.finRange 16).drop r)[x] = d ∧ x = d - r := by
    intro d hd
    have hx : (d : ℕ) - r < ((List.finRange 16).drop r).length := by
      rw [List.length_drop, List.length_finRange]
      omega
    exact ⟨d - r, hx, Fin.ext (by rw [hget]; omega), rfl⟩
  constructor
  · intro d hd
    obtain ⟨hp, x, hx, rfl, hbefore⟩ := List.find?_eq_some_iff_getElem.1 hd
    refine ⟨by rw [hget]; omega, hp, fun d' hr hlt => ?_⟩
    obtain ⟨y, hy, rfl, hyd⟩ := hmem d' hr
    have hyx : y < x := by
      have := Fin.lt_def.1 hlt
      rw [hget, hget] at this
      omega
    simpa using hbefore y hyx
  · intro hnone d hd
    obtain ⟨x, hx, rfl, -⟩ := hmem d hd
    simpa using List.find?_eq_none.1 hnone _ (List.getElem_mem hx)

section walking
variable {m : Map K V multiple}

/-- The iterator stands at the first live byte from `c` on, or at the end. -/
structure Iterator.From (m : Map K V multiple) (c : ℕ) (it : Iterator) : Prop where
  le : c ≤ it.c
  le_length : it.c ≤ m.buckets.length
  iter_eq : it.iter = it.c / 16
  skipped : ∀ q, c ≤ q → q < it.c → ¬ IsLive (m.byteAt q)
  live : it.c < m.buckets.length → IsLive (m.byteAt it.c)

lemma scan_ok (hlen : m.buckets.length % 16 = 0) {fuel c : ℕ} (hc : c ≤ m.buckets.length)
    {it : Iterator} (hrun : m.scan fuel c (c / 16) = .ok it) : it.From m c := by
  induction fuel generalizing c with
  | zero => cases hrun
  | succ fuel ih =>
    unfold scan at hrun
    by_cases hlt : c < m.buckets.length
    · rw [if_pos hlt] at hrun
      obtain ⟨current, hcurrent, hrun⟩ := Run.bind_eq_ok.1 hrun
      obtain ⟨-, rfl⟩ := lt_of_control hcurrent
      obtain ⟨hsome, hnone⟩ := @find_from (fun d => decide (m.byte (c / 16) d ≠ 0 ∧
        m.byte (c / 16) d ≠ sentinel)) (c % 16)
      -- the bytes of this group from `c` on
      have hgroup : ∀ q, c ≤ q → q < c - c % 16 + 16 → q / 16 = c / 16 ∧ c % 16 ≤ q % 16 := by
        intro q hq hq'
        omega
      cases hfind : ((List.finRange 16).drop (c % 16)).find? fun d =>
          decide (m.byte (c / 16) d ≠ 0 ∧ m.byte (c / 16) d ≠ sentinel) with
      | some d =>
        obtain ⟨hle, hd, hbefore⟩ := hsome d hfind
        rw [hfind] at hrun
        cases hrun
        have hd16 := d.2
        have hdiv : (c - c % 16 + (d : ℕ)) / 16 = c / 16 := by omega
        have hmod : (c - c % 16 + (d : ℕ)) % 16 = d := by omega
        refine ⟨by dsimp only; omega, by dsimp only; omega, hdiv.symm, fun q hq hq' hlive => ?_, ?_⟩
        · dsimp only at hq'
          obtain ⟨hqd, hqm⟩ := hgroup q hq (by omega)
          have hno := hbefore ⟨q % 16, Nat.mod_lt _ (by decide)⟩ hqm
            (Fin.lt_def.2 (by show q % 16 < d; omega))
          rw [byteAt, hqd] at hlive
          exact of_decide_eq_false hno hlive
        · intro _
          have hfin : (⟨(c - c % 16 + (d : ℕ)) % 16, Nat.mod_lt _ (by decide)⟩ : Fin 16) = d :=
            Fin.ext hmod
          show IsLive (m.byte ((c - c % 16 + (d : ℕ)) / 16) _)
          rw [hdiv, hfin]
          exact of_decide_eq_true hd
      | none =>
        rw [hfind] at hrun
        dsimp only at hrun
        have hiter : c / 16 + 1 = (c - c % 16 + 16) / 16 := by omega
        rw [hiter] at hrun
        have hfrom := ih (by omega) hrun
        refine ⟨by have := hfrom.le; omega, hfrom.le_length, hfrom.iter_eq, fun q hq hq' => ?_,
          hfrom.live⟩
        by_cases hnext : c - c % 16 + 16 ≤ q
        · exact hfrom.skipped q hnext hq'
        · obtain ⟨hqd, hqm⟩ := hgroup q hq (not_le.1 hnext)
          intro hlive
          rw [byteAt, hqd] at hlive
          exact of_decide_eq_false (hnone hfind ⟨q % 16, Nat.mod_lt _ (by decide)⟩ hqm) hlive
    · rw [if_neg hlt] at hrun
      cases hrun
      exact ⟨le_rfl, hc, rfl, fun q hq hq' => absurd hq' (not_lt.2 hq), fun h => absurd h hlt⟩

lemma scan_ends (hlen : m.buckets.length % 16 = 0)
    (hroom : m.buckets.length ≤ m.controlBytes.length * 16) {fuel c : ℕ}
    (hc : c ≤ m.buckets.length) (hfuel : m.buckets.length / 16 < c / 16 + fuel) :
    ∃ it, m.scan fuel c (c / 16) = .ok it := by
  induction fuel generalizing c with
  | zero => omega
  | succ fuel ih =>
    unfold scan
    split_ifs with hlt
    · rw [control_eq (by omega), Run.bind_ok]
      cases ((List.finRange 16).drop (c % 16)).find? fun d =>
          decide (m.byte (c / 16) d ≠ 0 ∧ m.byte (c / 16) d ≠ sentinel) with
      | some d => exact ⟨_, rfl⟩
      | none =>
        dsimp only
        rw [show c / 16 + 1 = (c - c % 16 + 16) / 16 by omega]
        exact ih (by omega) (by omega)
    · exact ⟨_, rfl⟩

end walking

end CoreCommon.Map
