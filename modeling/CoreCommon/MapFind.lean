import CoreCommon.MapStorage

/-! Stepping a `FindIterator` from `find_begin` to `find_end`. After a match it goes on with
the next group, so it finds one bucket of the key in a group, and it does not stop in the last
group of the chain when that holds the key. -/
namespace CoreCommon.Map
variable {K V : Type} {multiple : Bool}

/-- The buckets found by `for (; it != find_end(); ++it)`. -/
def visitLoop [DecidableEq K] (m : Map K V multiple) (k : K) (fuel : ℕ) :
    ℕ → FindIterator → Run (List ℕ)
  | 0, _ => .error .diverges
  | steps + 1, it =>
    match it.bucket with
    | some j => do
      let next ← it.next m k fuel
      let l ← visitLoop m k fuel steps next
      .ok (j :: l)
    | none => .ok []

def visits [DecidableEq K] (hash : K → UInt64) (fuel : ℕ) (m : Map K V multiple) (k : K) :
    Run (List ℕ) := do
  let it ← m.findBegin hash fuel k
  m.visitLoop k fuel fuel it

/-- Stepping ends, and goes through the buckets of `k` on its probe chain once each. -/
def VisitsChain [DecidableEq K] (hash : K → UInt64) (m : Map K V multiple) (k : K) : Prop :=
  ∃ n, ∀ fuel ≥ n, ∃ l, m.visits hash fuel k = .ok l ∧ l.Nodup ∧
    ∀ j, j ∈ l ↔ ∃ (i : ℕ) (c : Fin 16) (v : V), j = i * 16 + (c : ℕ) ∧
      m.Chained (home hash k) i ∧ m.At i c k v

/-! ### Stops -/

/-- The group at position `j` of the probe sequence has an empty byte. -/
def EmptyAt (hash : K → UInt64) (m : Map K V multiple) (k : K) (j : ℕ) : Prop :=
  ∃ c, m.byte (probeAt m.controlBytes.length (home hash k) j) c = 0

/-- The group at position `j` of the probe sequence holds the key. -/
def MatchAt (hash : K → UInt64) (m : Map K V multiple) (k : K) (j : ℕ) : Prop :=
  ∃ c v, m.At (probeAt m.controlBytes.length (home hash k) j) c k v

/-- The first bucket of `k` in group `i`. -/
structure First (m : Map K V multiple) (k : K) (i : ℕ) (c : Fin 16) : Prop where
  at_ : ∃ v, m.At i c k v
  before : ∀ d < c, ∀ v, ¬ m.At i d k v

/-- Positions where the loop of `operator++` does not stop. -/
def Skipped (hash : K → UInt64) (m : Map K V multiple) (k : K) (j j' : ℕ) : Prop :=
  ∀ q, j ≤ q → q < j' → ¬ EmptyAt hash m k q ∧ ¬ MatchAt hash m k q

/-- The buckets found from position `j` on. -/
inductive Trail (hash : K → UInt64) (m : Map K V multiple) (k : K) : ℕ → List ℕ → Prop
  | stop {j j' : ℕ} (hle : j ≤ j') (hskip : Skipped hash m k j j') (hempty : EmptyAt hash m k j')
      (hmiss : ¬ MatchAt hash m k j') : Trail hash m k j []
  | hit {j j' : ℕ} {c : Fin 16} {l : List ℕ} (hle : j ≤ j') (hskip : Skipped hash m k j j')
      (hfirst : First m k (probeAt m.controlBytes.length (home hash k) j') c)
      (hrest : Trail hash m k (j' + 1) l) :
      Trail hash m k j ((probeAt m.controlBytes.length (home hash k) j' * 16 + (c : ℕ)) :: l)

section stops
variable {hash : K → UInt64} {m : Map K V multiple} {k : K} {i j j' : ℕ} {c c' : Fin 16}

lemma First.unique (h : First m k i c) (h' : First m k i c') : c = c' := by
  obtain ⟨v, hv⟩ := h.at_
  obtain ⟨v', hv'⟩ := h'.at_
  rcases lt_trichotomy c c' with hlt | heq | hgt
  · exact absurd hv (h'.before c hlt v)
  · exact heq
  · exact absurd hv' (h.before c' hgt v')

lemma First.matchAt (h : First m k (probeAt m.controlBytes.length (home hash k) j) c) :
    MatchAt hash m k j :=
  ⟨c, h.at_⟩

lemma MatchAt.exists_first (h : MatchAt hash m k j) :
    ∃ c, First m k (probeAt m.controlBytes.length (home hash k) j) c := by
  classical
  obtain ⟨c, v, hat⟩ := h
  let s : Finset (Fin 16) := Finset.univ.filter fun c =>
    ∃ v, m.At (probeAt m.controlBytes.length (home hash k) j) c k v
  have hs : s.Nonempty := ⟨c, by simp [s]; exact ⟨v, hat⟩⟩
  refine ⟨s.min' hs, ?_, fun d hd v hv => ?_⟩
  · simpa [s] using s.min'_mem hs
  · exact absurd (s.min'_le d (by simp [s]; exact ⟨v, hv⟩)) (not_le.2 hd)

lemma Trail.skip {l : List ℕ} (h : Trail hash m k (j + 1) l) (hempty : ¬ EmptyAt hash m k j)
    (hmiss : ¬ MatchAt hash m k j) : Trail hash m k j l := by
  have hskip : ∀ {j'}, Skipped hash m k (j + 1) j' → Skipped hash m k j j' := by
    intro j' hskip q hq hq'
    rcases Nat.eq_or_lt_of_le hq with rfl | hlt
    · exact ⟨hempty, hmiss⟩
    · exact hskip q hlt hq'
  cases h with
  | stop hle hs he hm => exact .stop ((Nat.le_succ j).trans hle) (hskip hs) he hm
  | hit hle hs hf hr => exact .hit ((Nat.le_succ j).trans hle) (hskip hs) hf hr

/-- Only first buckets of groups are found. -/
lemma Trail.first {l : List ℕ} (h : Trail hash m k j l) {b : ℕ} (hb : b ∈ l) :
    ∃ (i : ℕ) (c : Fin 16), b = i * 16 + (c : ℕ) ∧ First m k i c := by
  induction h with
  | stop => cases hb
  | hit _ _ hfirst _ ih =>
    rcases List.mem_cons.1 hb with rfl | hb
    · exact ⟨_, _, rfl, hfirst⟩
    · exact ih hb

end stops
/-! ### The loop -/

section looping
variable [DecidableEq K] {hash : K → UInt64} {m : Map K V multiple} {k : K} {j : ℕ} {p : Probe}

lemma matchFrom_first {i : ℕ} {current : ControlBytes} {b : UInt8} {cs : List (Fin 16)}
    {c : Fin 16} (h : matchFrom m k i current b cs = .ok (some c)) :
    ∃ l₁ l₂, cs = l₁ ++ c :: l₂ ∧
      ∀ d ∈ l₁, current d = b → ∀ v, m.buckets[i * 16 + (d : ℕ)]? ≠ some (k, v) := by
  induction cs with
  | nil => cases h
  | cons d cs ih =>
    unfold matchFrom at h
    split_ifs at h with hd
    · obtain ⟨e, he, h⟩ := Run.bind_eq_ok.1 h
      split_ifs at h with hk
      · cases h
        exact ⟨[], cs, rfl, by simp⟩
      · obtain ⟨l₁, l₂, rfl, hl⟩ := ih h
        refine ⟨d :: l₁, l₂, rfl, fun d' hd' hb v hv => ?_⟩
        rcases List.mem_cons.1 hd' with rfl | hd'
        · exact hk (congrArg Prod.fst (Option.some.inj ((bucket_eq_ok.1 he).symm.trans hv)))
        · exact hl d' hd' hb v hv
    · obtain ⟨l₁, l₂, rfl, hl⟩ := ih h
      refine ⟨d :: l₁, l₂, rfl, fun d' hd' hb => ?_⟩
      rcases List.mem_cons.1 hd' with rfl | hd'
      · exact absurd hb hd
      · exact hl d' hd' hb

/-- The match is at the first bucket of the key in the group. -/
lemma match_first (hm : m.Sound hash) (hp : p.OnChain hash m.controlBytes.length k j)
    {q : Probe} {res : MatchResult} (h : p.match_ m k = .ok (q, res)) {c : Fin 16} {v : V}
    (hat : m.At p.i c k v) (hres : res.bucket = some (p.i * 16 + (c : ℕ))) : First m k p.i c := by
  refine ⟨⟨v, hat⟩, fun d hd w hdw => ?_⟩
  unfold Probe.match_ at h
  rw [control_eq hat.lt, Run.bind_ok] at h
  obtain ⟨r, hr, h⟩ := Run.bind_eq_ok.1 h
  rw [hp.c_eq, List.drop_zero] at hr
  cases r with
  | none =>
    cases h
    cases hres
  | some c' =>
    cases h
    obtain rfl : c' = c := (slot_injective (Option.some.inj hres)).2
    obtain ⟨l₁, l₂, hsplit, hmiss⟩ := matchFrom_first hr
    have hsorted : (l₁ ++ c' :: l₂).Pairwise (· < ·) := hsplit ▸ List.pairwise_lt_finRange 16
    have hmem : d ∈ l₁ := by
      have hd' : d ∈ l₁ ++ c' :: l₂ := hsplit ▸ List.mem_finRange d
      rcases List.mem_append.1 hd' with hd' | hd'
      · exact hd'
      · have hsuffix := (List.pairwise_append.1 hsorted).2.1
        rcases List.mem_cons.1 hd' with rfl | hd'
        · exact absurd hd (lt_irrefl d)
        · exact absurd hd (lt_asymm ((List.pairwise_cons.1 hsuffix).1 d hd'))
    refine hmiss d hmem ?_ w hdw.2
    rw [hm.target_eq _ _ _ _ hdw, hp.target_eq]

/-- The loop of `operator++` stops at the first stop. -/
lemma findLoop_stops (hm : m.Sound hash) {fuel : ℕ}
    (hp : p.OnChain hash m.controlBytes.length k j)
    (hstop : ∃ j' < j + fuel, j ≤ j' ∧ EmptyAt hash m k j') :
    ∃ j' it, j ≤ j' ∧ Skipped hash m k j j' ∧ m.findLoop k fuel p = .ok it ∧
      ((∃ c, First m k (probeAt m.controlBytes.length (home hash k) j') c ∧
          it.bucket = some (probeAt m.controlBytes.length (home hash k) j' * 16 + (c : ℕ)) ∧
          (it.probe.next m).OnChain hash m.controlBytes.length k (j' + 1)) ∨
        EmptyAt hash m k j' ∧ ¬ MatchAt hash m k j' ∧ it.bucket = none) := by
  induction fuel generalizing p j with
  | zero =>
    obtain ⟨j', hlt, hle, -⟩ := hstop
    omega
  | succ fuel ih =>
    obtain ⟨q, res, hq, hpq, hcont, hres⟩ := match_spec hm hp
    unfold findLoop
    rw [hq, Run.bind_ok]
    dsimp only
    rcases hres with ⟨c, v, -, hb, hat⟩ | ⟨hb, hno⟩
    · have hfirst := match_first hm hp hq hat hb
      rw [hb, if_pos Option.isSome_some]
      rw [hp.i_eq] at hfirst ⊢
      exact ⟨j, _, le_rfl, fun q hq hq' => by omega, rfl, .inl ⟨c, hfirst, rfl, hp.next hm.dvd hpq⟩⟩
    · have hmiss : ¬ MatchAt hash m k j := by
        rintro ⟨c, v, hat⟩
        exact hno c v (hp.i_eq.symm ▸ hat)
      rw [hb, if_neg (by simp), hcont, hp.i_eq]
      by_cases hfull : ∀ c, m.byte (probeAt m.controlBytes.length (home hash k) j) c ≠ 0
      · have hempty : ¬ EmptyAt hash m k j := by
          rintro ⟨c, hc⟩
          exact hfull c hc
        rw [if_pos (decide_eq_true hfull)]
        obtain ⟨j₀, hlt, hle, hj₀⟩ := hstop
        have hne : j₀ ≠ j := fun heq => hempty (heq ▸ hj₀)
        obtain ⟨j', it, hle', hskip, hrun, hit⟩ :=
          ih (hp.next hm.dvd hpq) ⟨j₀, by omega, by omega, hj₀⟩
        refine ⟨j', it, by omega, fun q hq hq' => ?_, hrun, hit⟩
        rcases Nat.eq_or_lt_of_le hq with rfl | hlt
        · exact ⟨hempty, hmiss⟩
        · exact hskip q hlt hq'
      · rw [if_neg (by rwa [decide_eq_true_eq])]
        push Not at hfull
        exact ⟨j, _, le_rfl, fun q hq hq' => by omega, rfl, .inr ⟨hfull, hmiss, rfl⟩⟩

omit [DecidableEq K] in
lemma Skipped.eq_of_stop {j j₁ j₂ : ℕ} (h₁ : Skipped hash m k j j₁) (h₂ : Skipped hash m k j j₂)
    (hle₁ : j ≤ j₁) (hle₂ : j ≤ j₂) (hs₁ : EmptyAt hash m k j₁ ∨ MatchAt hash m k j₁)
    (hs₂ : EmptyAt hash m k j₂ ∨ MatchAt hash m k j₂) : j₁ = j₂ := by
  rcases lt_trichotomy j₁ j₂ with hlt | heq | hgt
  · exact absurd hs₁ (not_or.2 (h₂ j₁ hle₁ hlt))
  · exact heq
  · exact absurd hs₂ (not_or.2 (h₁ j₂ hle₂ hgt))

omit [DecidableEq K] in
lemma exists_emptyAt (hm : m.Sound hash) {j₀ : ℕ} (hj₀ : EmptyAt hash m k j₀) (j : ℕ) :
    ∃ j' < j + 3 * m.controlBytes.length, j ≤ j' ∧ EmptyAt hash m k j' := by
  obtain ⟨c, hc⟩ := hj₀
  obtain ⟨e, -, he⟩ := hm.size
  have hpos := hm.pos
  obtain ⟨x, hx, hxj⟩ := exists_probeAt (home hash k)
    (he ▸ probeAt_lt hpos (home hash k) j₀ : probeAt m.controlBytes.length (home hash k) j₀ < 2 ^ e)
  rw [← he] at hx hxj
  set n := m.controlBytes.length
  -- the position of that group in the next period
  have hlow : 2 * n * (j / (2 * n)) ≤ j := Nat.mul_div_le j (2 * n)
  have hhigh : j < 2 * n * (j / (2 * n) + 1) := Nat.lt_mul_div_succ j (by omega)
  have hexpand : 2 * n * (j / (2 * n) + 1) = 2 * n * (j / (2 * n)) + 2 * n := Nat.mul_succ _ _
  refine ⟨2 * n * (j / (2 * n) + 1) + x, by omega, by omega, c, ?_⟩
  rw [probeAt_period, hxj]
  exact hc

section steps
variable {fuel : ℕ} (hm : m.Sound hash)
  (hempty : ∀ j, ∃ j' < j + fuel, j ≤ j' ∧ EmptyAt hash m k j')
include hm hempty

lemma visitLoop_trail {steps : ℕ} {it : FindIterator} {l : List ℕ}
    (hp : p.OnChain hash m.controlBytes.length k j) (hit : m.findLoop k fuel p = .ok it)
    (hrun : m.visitLoop k fuel steps it = .ok l) : Trail hash m k j l := by
  induction steps generalizing p j it l with
  | zero => cases hrun
  | succ steps ih =>
    obtain ⟨j', it', hle, hskip, hfind, hstop⟩ := findLoop_stops hm hp (hempty j)
    obtain rfl := Except.ok.inj (hit.symm.trans hfind)
    unfold visitLoop at hrun
    rcases hstop with ⟨c, hfirst, hb, hnext⟩ | ⟨he, hmiss, hb⟩
    · rw [hb] at hrun
      obtain ⟨it₁, hit₁, hrun⟩ := Run.bind_eq_ok.1 hrun
      obtain ⟨l₁, hl₁, hrun⟩ := Run.bind_eq_ok.1 hrun
      cases hrun
      unfold FindIterator.next at hit₁
      rw [hb, if_pos Option.isSome_some] at hit₁
      exact .hit hle hskip hfirst (ih hnext hit₁ hl₁)
    · rw [hb] at hrun
      cases hrun
      exact .stop hle hskip he hmiss

lemma Trail.visitLoop {l : List ℕ} (h : Trail hash m k j l) {p : Probe} {steps : ℕ}
    {it : FindIterator} (hp : p.OnChain hash m.controlBytes.length k j)
    (hit : m.findLoop k fuel p = .ok it) (hsteps : l.length < steps) :
    m.visitLoop k fuel steps it = .ok l := by
  induction h generalizing p steps it with
  | @stop j j₁ hle hskip he hmiss =>
    obtain ⟨steps, rfl⟩ : ∃ n, steps = n + 1 := ⟨steps - 1, by omega⟩
    obtain ⟨j', it', hle', hskip', hfind, hstop⟩ := findLoop_stops hm hp (hempty j)
    obtain rfl := Except.ok.inj (hit.symm.trans hfind)
    unfold Map.visitLoop
    rcases hstop with ⟨c, hfirst, -, -⟩ | ⟨-, -, hb⟩
    · obtain rfl := hskip.eq_of_stop hskip' hle hle' (.inl he) (.inr hfirst.matchAt)
      exact absurd hfirst.matchAt hmiss
    · rw [hb]
  | @hit j j₁ c l hle hskip hfirst hrest ih =>
    obtain ⟨steps, rfl⟩ : ∃ n, steps = n + 1 := ⟨steps - 1, by omega⟩
    obtain ⟨j', it', hle', hskip', hfind, hstop⟩ := findLoop_stops hm hp (hempty j)
    obtain rfl := Except.ok.inj (hit.symm.trans hfind)
    unfold Map.visitLoop
    rcases hstop with ⟨c', hfirst', hb, hnext⟩ | ⟨he, hmiss, -⟩
    · obtain rfl := hskip.eq_of_stop hskip' hle hle' (.inr hfirst.matchAt) (.inr hfirst'.matchAt)
      obtain rfl := hfirst.unique hfirst'
      obtain ⟨j₂, it₂, -, -, hit₂, -⟩ := findLoop_stops hm hnext (hempty _)
      have hstep : it.next m k fuel = .ok it₂ := by
        unfold FindIterator.next
        rw [hb, if_pos Option.isSome_some]
        exact hit₂
      rw [hb]
      dsimp only
      rw [hstep, Run.bind_ok, ih hnext hit₂ (by rw [List.length_cons] at hsteps; omega)]
      rfl
    · obtain rfl := hskip.eq_of_stop hskip' hle hle' (.inr hfirst.matchAt) (.inl he)
      exact absurd hfirst.matchAt hmiss

end steps

lemma visits_eq (m : Map K V multiple) (fuel : ℕ) : m.visits hash fuel k =
    m.findLoop k fuel (m.probe (doHash hash k)) >>= m.visitLoop k fuel fuel := by
  unfold visits findBegin FindIterator.next
  rw [if_neg (by simp)]

/-- With enough fuel the iterator finds the buckets of its trail, and ends if that does. -/
lemma visits_iff_trail (hm : m.Sound hash) {j₀ : ℕ} (hj₀ : EmptyAt hash m k j₀) (P : List ℕ → Prop) :
    (∃ n, ∀ fuel ≥ n, ∃ l, m.visits hash fuel k = .ok l ∧ P l) ↔
      ∃ l, Trail hash m k 0 l ∧ P l := by
  have hempty : ∀ fuel ≥ 3 * m.controlBytes.length, ∀ j,
      ∃ j' < j + fuel, j ≤ j' ∧ EmptyAt hash m k j' := by
    intro fuel hfuel j
    obtain ⟨j', hlt, hle, hj'⟩ := exists_emptyAt hm hj₀ j
    exact ⟨j', by omega, hle, hj'⟩
  constructor
  · rintro ⟨n, hn⟩
    obtain ⟨l, hl, hP⟩ := hn (max n (3 * m.controlBytes.length)) (le_max_left _ _)
    rw [visits_eq] at hl
    obtain ⟨it, hit, hl⟩ := Run.bind_eq_ok.1 hl
    exact ⟨l, visitLoop_trail hm (hempty _ (le_max_right _ _)) (probe_onChain hash m k) hit hl, hP⟩
  · rintro ⟨l, hl, hP⟩
    refine ⟨3 * m.controlBytes.length + l.length + 1, fun fuel hfuel => ⟨l, ?_, hP⟩⟩
    have hempty := hempty fuel (by omega)
    obtain ⟨j', it, -, -, hit, -⟩ := findLoop_stops hm (probe_onChain hash m k) (hempty 0)
    rw [visits_eq, hit, Run.bind_ok]
    exact hl.visitLoop hm hempty (probe_onChain hash m k) hit (by omega)

end looping
/-! ### The chain -/

/-- No group of the chain holds the key twice. -/
def Alone (hash : K → UInt64) (m : Map K V multiple) (k : K) : Prop :=
  ∀ i c c' v v', m.Chained (home hash k) i → m.At i c k v → m.At i c' k v' → c = c'

/-- If the last group of the chain holds the key, then the next group in the probe sequence
that holds it or has an empty byte does not hold it. -/
def EndsClean (hash : K → UInt64) (m : Map K V multiple) (k : K) : Prop :=
  ∀ n, (∀ j < n, ¬ EmptyAt hash m k j) → EmptyAt hash m k n → MatchAt hash m k n →
    ∃ j > n, Skipped hash m k (n + 1) j ∧ EmptyAt hash m k j ∧ ¬ MatchAt hash m k j

section chain
variable {hash : K → UInt64} {m : Map K V multiple} {k : K} {j n : ℕ}

lemma chained_iff (hfull : ∀ j < n, ¬ EmptyAt hash m k j) (hn : EmptyAt hash m k n) (i : ℕ) :
    m.Chained (home hash k) i ↔ ∃ j ≤ n, i = probeAt m.controlBytes.length (home hash k) j := by
  constructor
  · rintro ⟨j, hi, hpassed⟩
    refine ⟨j, ?_, hi⟩
    by_contra hlt
    obtain ⟨c, hc⟩ := hn
    exact hpassed n (not_le.1 hlt) c hc
  · rintro ⟨j, hj, hi⟩
    exact ⟨j, hi, fun j' hj' c hc => hfull j' (by omega) ⟨c, hc⟩⟩

/-- The groups of the chain are pairwise different. -/
lemma chain_injective (hm : m.Sound hash) (hfull : ∀ j < n, ¬ EmptyAt hash m k j)
    (hn : EmptyAt hash m k n) {i j : ℕ} (hi : i ≤ n) (hj : j ≤ n)
    (h : probeAt m.controlBytes.length (home hash k) i =
      probeAt m.controlBytes.length (home hash k) j) : i = j := by
  obtain ⟨c, hc⟩ := hn
  obtain ⟨e, -, he⟩ := hm.size
  obtain ⟨x, hx, hxn⟩ := exists_probeAt (home hash k)
    (he ▸ probeAt_lt hm.pos (home hash k) n : probeAt m.controlBytes.length (home hash k) n < 2 ^ e)
  rw [← he] at hx hxn
  have hnx : n ≤ x := by
    by_contra hlt
    exact hfull x (not_le.1 hlt) ⟨c, hxn.symm ▸ hc⟩
  rw [he] at hx h
  exact probeAt_injective (by omega) (by omega) h

/-- The part of a trail in the chain, which goes through all its groups, and what follows. -/
lemma Trail.split (hfull : ∀ j < n, ¬ EmptyAt hash m k j) (hmatch : MatchAt hash m k n)
    {l : List ℕ} (h : Trail hash m k j l) (hj : j ≤ n) :
    ∃ l₁ l₂, l = l₁ ++ l₂ ∧ Trail hash m k (n + 1) l₂ ∧ ∀ q, j ≤ q → q ≤ n → ∀ c,
      First m k (probeAt m.controlBytes.length (home hash k) q) c →
        probeAt m.controlBytes.length (home hash k) q * 16 + (c : ℕ) ∈ l₁ := by
  induction h with
  | @stop j j' hle hskip hempty hmiss =>
    have hn : ¬ n < j' := fun hlt => (hskip n hj hlt).2 hmatch
    rcases Nat.eq_or_lt_of_le (not_lt.1 hn) with rfl | hlt
    · exact absurd hmatch hmiss
    · exact absurd hempty (hfull j' hlt)
  | @hit j j' c l hle hskip hfirst hrest ih =>
    have hn : ¬ n < j' := fun hlt => (hskip n hj hlt).2 hmatch
    have hmem : ∀ q, j ≤ q → q ≤ j' → ∀ d,
        First m k (probeAt m.controlBytes.length (home hash k) q) d → q = j' ∧
          probeAt m.controlBytes.length (home hash k) q * 16 + (d : ℕ) =
            probeAt m.controlBytes.length (home hash k) j' * 16 + (c : ℕ) := by
      intro q hq hq' d hd
      rcases Nat.eq_or_lt_of_le hq' with rfl | hlt
      · exact ⟨rfl, by rw [hd.unique hfirst]⟩
      · exact absurd hd.matchAt (hskip q hq hlt).2
    rcases Nat.eq_or_lt_of_le (not_lt.1 hn) with rfl | hlt
    · exact ⟨[_], l, rfl, hrest, fun q hq hq' d hd => List.mem_singleton.2 (hmem q hq hq' d hd).2⟩
    · obtain ⟨l₁, l₂, rfl, hrest₂, hl₁⟩ := ih hlt
      refine ⟨_ :: l₁, l₂, rfl, hrest₂, fun q hq hq' d hd => ?_⟩
      by_cases hqj : q ≤ j'
      · exact List.mem_cons.2 (.inl (hmem q hq hqj d hd).2)
      · exact List.mem_cons_of_mem _ (hl₁ q (not_le.1 hqj) hq' d hd)

/-- Bucket `b` holds the key, in a group from position `j` to position `n` of the probe. -/
def HeldFrom (hash : K → UInt64) (m : Map K V multiple) (k : K) (n j b : ℕ) : Prop :=
  ∃ (q : ℕ) (c : Fin 16) (v : V), j ≤ q ∧ q ≤ n ∧
    b = probeAt m.controlBytes.length (home hash k) q * 16 + (c : ℕ) ∧
      m.At (probeAt m.controlBytes.length (home hash k) q) (c : Fin 16) k v

lemma heldFrom_last (b : ℕ) : ¬ HeldFrom hash m k n (n + 1) b := by
  rintro ⟨q, c, v, hq, hq', -⟩
  omega

/-- The group at position `j`, and those behind it. -/
lemma heldFrom_iff (hj : j ≤ n) {b : ℕ} : HeldFrom hash m k n j b ↔
    (∃ (c : Fin 16) (v : V), b = probeAt m.controlBytes.length (home hash k) j * 16 + (c : ℕ) ∧
      m.At (probeAt m.controlBytes.length (home hash k) j) c k v) ∨
        HeldFrom hash m k n (j + 1) b := by
  constructor
  · rintro ⟨q, c, v, hq, hrest⟩
    rcases Nat.eq_or_lt_of_le hq with rfl | hlt
    · exact .inl ⟨c, v, hrest.2⟩
    · exact .inr ⟨q, c, v, hlt, hrest⟩
  · rintro (⟨c, v, hat⟩ | ⟨q, c, v, hq, hrest⟩)
    · exact ⟨j, c, v, le_rfl, hj, hat⟩
    · exact ⟨q, c, v, (Nat.le_succ j).trans hq, hrest⟩

lemma heldFrom_of_not_matchAt (hj : j ≤ n) (hmatch : ¬ MatchAt hash m k j) {b : ℕ} :
    HeldFrom hash m k n j b ↔ HeldFrom hash m k n (j + 1) b := by
  rw [heldFrom_iff hj, or_iff_right]
  rintro ⟨c, v, -, hat⟩
  exact hmatch ⟨c, v, hat⟩

/-- A group with the key before the buckets of the later groups. -/
lemma Trail.cons (hm : m.Sound hash) (hfull : ∀ j < n, ¬ EmptyAt hash m k j)
    (hn : EmptyAt hash m k n) (halone : Alone hash m k) (hj : j ≤ n) (hmatch : MatchAt hash m k j)
    {l : List ℕ} (hl : Trail hash m k (j + 1) l) (hnodup : l.Nodup)
    (hmem : ∀ b, b ∈ l ↔ HeldFrom hash m k n (j + 1) b) :
    ∃ l, Trail hash m k j l ∧ l.Nodup ∧ ∀ b, b ∈ l ↔ HeldFrom hash m k n j b := by
  obtain ⟨c, hfirst⟩ := hmatch.exists_first
  obtain ⟨v, hv⟩ := hfirst.at_
  refine ⟨_, .hit le_rfl (fun q hq hq' => by omega) hfirst hl,
    List.nodup_cons.2 ⟨fun hb => ?_, hnodup⟩, fun b => ?_⟩
  · obtain ⟨q, c', v, hq, hq', hb, -⟩ := (hmem _).1 hb
    have := chain_injective hm hfull hn hj hq' (slot_injective hb).1
    omega
  · rw [List.mem_cons, hmem, heldFrom_iff hj]
    refine or_congr ⟨fun hb => ⟨c, v, hb, hv⟩, ?_⟩ Iff.rfl
    rintro ⟨c', v', hb, hat⟩
    have hsame := halone _ _ _ _ _ ((chained_iff hfull hn _).2 ⟨j, hj, rfl⟩) hat hv
    exact hb.trans (by rw [hsame])

/-- The trail from position `j` on goes through the buckets of the chain. -/
lemma exists_trail (hm : m.Sound hash) (hfull : ∀ j < n, ¬ EmptyAt hash m k j)
    (hn : EmptyAt hash m k n) (halone : Alone hash m k) (hclean : EndsClean hash m k) (d : ℕ) :
    ∀ j, j + d = n →
      ∃ l, Trail hash m k j l ∧ l.Nodup ∧ ∀ b, b ∈ l ↔ HeldFrom hash m k n j b := by
  induction d with
  | zero =>
    intro j hj
    obtain rfl : j = n := hj
    have hnil : ∀ b, b ∈ ([] : List ℕ) ↔ HeldFrom hash m k j (j + 1) b := fun b =>
      ⟨nofun, fun h => absurd h (heldFrom_last b)⟩
    by_cases hmatch : MatchAt hash m k j
    · obtain ⟨j', hgt, hskip, hempty, hmiss⟩ := hclean j hfull hn hmatch
      exact Trail.cons hm hfull hn halone le_rfl hmatch (.stop hgt hskip hempty hmiss) .nil hnil
    · refine ⟨[], .stop le_rfl (fun q hq hq' => by omega) hn hmatch, .nil, fun b => ?_⟩
      rw [hnil, heldFrom_of_not_matchAt le_rfl hmatch]
  | succ d ih =>
    intro j hj
    obtain ⟨l, hl, hnodup, hmem⟩ := ih (j + 1) (by omega)
    by_cases hmatch : MatchAt hash m k j
    · exact Trail.cons hm hfull hn halone (by omega) hmatch hl hnodup hmem
    · refine ⟨l, hl.skip (hfull j (by omega)) hmatch, hnodup, fun b => ?_⟩
      rw [hmem, heldFrom_of_not_matchAt (by omega) hmatch]

end chain

/-! ### Runs -/

section runs
variable [DecidableEq K] {hash : K → UInt64} {m : Map K V multiple} {k : K}

omit [DecidableEq K] in
lemma exists_last {j₀ : ℕ} (hj₀ : EmptyAt hash m k j₀) :
    ∃ n, (∀ j < n, ¬ EmptyAt hash m k j) ∧ EmptyAt hash m k n := by
  classical
  exact ⟨Nat.find ⟨j₀, hj₀⟩, fun j hj => Nat.find_min _ hj, Nat.find_spec ⟨j₀, hj₀⟩⟩

lemma VisitsChain.alone (hm : m.Sound hash) {j₀ : ℕ} (hj₀ : EmptyAt hash m k j₀)
    (h : VisitsChain hash m k) : Alone hash m k := by
  obtain ⟨l, hl, -, hmem⟩ := (visits_iff_trail hm hj₀ _).1 h
  have hfirst : ∀ {i c v}, m.Chained (home hash k) i → m.At i c k v → First m k i c := by
    intro i c v hi hat
    obtain ⟨i', c', hb, hfirst⟩ := hl.first ((hmem _).2 ⟨i, c, v, rfl, hi, hat⟩)
    obtain ⟨rfl, rfl⟩ := slot_injective hb
    exact hfirst
  exact fun i c c' v v' hi hat hat' => (hfirst hi hat).unique (hfirst hi hat')

lemma VisitsChain.endsClean (hm : m.Sound hash) {j₀ : ℕ} (hj₀ : EmptyAt hash m k j₀)
    (h : VisitsChain hash m k) : EndsClean hash m k := by
  intro n hfull hn hmatch
  obtain ⟨l, hl, hnodup, hmem⟩ := (visits_iff_trail hm hj₀ _).1 h
  obtain ⟨l₁, l₂, rfl, hl₂, hl₁⟩ := hl.split hfull hmatch (Nat.zero_le n)
  cases hl₂ with
  | @stop _ j' hle hskip hempty hmiss => exact ⟨j', hle, hskip, hempty, hmiss⟩
  | @hit _ j' c l₂ hle hskip hfirst hrest =>
    -- a bucket found behind the chain is one of the chain, found a second time
    obtain ⟨i, c', v, hb, hi, hat⟩ := (hmem _).1 (List.mem_append_right l₁ List.mem_cons_self)
    obtain ⟨q, hq, rfl⟩ := (chained_iff hfull hn i).1 hi
    obtain ⟨hgroup, rfl⟩ := slot_injective hb
    have hfirst' := hgroup ▸ hfirst
    have hdup := hl₁ q (Nat.zero_le q) hq c hfirst'
    rw [← hgroup] at hdup
    exact absurd hnodup fun h => (List.disjoint_of_nodup_append h) hdup List.mem_cons_self

variable [Inhabited K] [Inhabited V]

/-- In every state reached, for a key whose probe gets to a group with an empty byte. -/
theorem visitsChain_iff (hm : Reachable hash m)
    (hprobe : ∃ j c, m.byte (probeAt m.controlBytes.length (home hash k) j) c = 0) :
    VisitsChain hash m k ↔ Alone hash m k ∧ EndsClean hash m k := by
  have hsound := hm.tidy.toSound
  obtain ⟨j₀, hj₀⟩ := hprobe
  constructor
  · exact fun h => ⟨h.alone hsound hj₀, h.endsClean hsound hj₀⟩
  · rintro ⟨halone, hclean⟩
    obtain ⟨n, hfull, hn⟩ := exists_last hj₀
    obtain ⟨l, hl, hnodup, hmem⟩ := exists_trail hsound hfull hn halone hclean n 0 (Nat.zero_add n)
    refine (visits_iff_trail hsound hj₀ _).2 ⟨l, hl, hnodup, fun b => ?_⟩
    rw [hmem]
    constructor
    · rintro ⟨q, c, v, -, hq, rfl, hat⟩
      exact ⟨_, c, v, rfl, (chained_iff hfull hn _).2 ⟨q, hq, rfl⟩, hat⟩
    · rintro ⟨i, c, v, rfl, hi, hat⟩
      obtain ⟨q, hq, rfl⟩ := (chained_iff hfull hn i).1 hi
      exact ⟨q, c, v, Nat.zero_le q, hq, rfl, hat⟩

/-- One entry. -/
theorem visitsChain_iff_example : ∃ m : Map ℕ ℕ true, m.count = 1 ∧
    (VisitsChain (fun _ => 257) m 1 ↔ Alone (fun _ => 257) m 1 ∧ EndsClean (fun _ => 257) m 1) := by
  have hrun : (ofCapacity (fun _ => 257) 0 >>= fun m₀ : Map ℕ ℕ true =>
      m₀.apply (fun _ => 257) 2 (.insert 1 5) >>= fun x =>
        .ok (x.1.count, decide (x.1.byte (probeAt x.1.controlBytes.length
          (home (fun _ => 257) 1) 0) 15 = 0))) = .ok (1, true) := by
    decide +kernel
  obtain ⟨m₀, hempty, hrun⟩ := Run.bind_eq_ok.1 hrun
  obtain ⟨⟨m₁, r⟩, hcall, hrun⟩ := Run.bind_eq_ok.1 hrun
  obtain ⟨hcount, hbyte⟩ := Prod.mk.inj (Except.ok.inj hrun)
  exact ⟨m₁, hcount, visitsChain_iff ((Reachable.empty hempty).call 2 _ hcall)
    ⟨0, 15, of_decide_eq_true hbyte⟩⟩

/-- Two entries of one key share a group, and the second is not found. -/
theorem find_misses_second : ¬ ∀ (hash : ℕ → UInt64) (m : Map ℕ ℕ true) (k : ℕ),
    Reachable hash m → (∃ j c, m.byte (probeAt m.controlBytes.length (home hash k) j) c = 0) →
    VisitsChain hash m k := by
  intro h
  have hrun : (ofCapacity (fun _ => 257) 0 >>= fun m₀ : Map ℕ ℕ true =>
      m₀.apply (fun _ => 257) 2 (.insert 1 5) >>= fun x =>
        x.1.apply (fun _ => 257) 2 (.insert 1 6) >>= fun y =>
          .ok (decide (y.1.controlBytes.length = 2 ∧ y.1.byte 1 15 = 0 ∧ y.1.byte 1 0 = 1 ∧
            y.1.byte 1 1 = 1 ∧ y.1.buckets[16]? = some (1, 5) ∧ y.1.buckets[17]? = some (1, 6)))) =
      .ok true := by
    decide +kernel
  obtain ⟨m₀, hempty, hrun⟩ := Run.bind_eq_ok.1 hrun
  obtain ⟨⟨m₁, r₁⟩, hfirst, hrun⟩ := Run.bind_eq_ok.1 hrun
  obtain ⟨⟨m, r₂⟩, hsecond, hrun⟩ := Run.bind_eq_ok.1 hrun
  obtain ⟨hlength, hbyte, hbyte₀, hbyte₁, hbucket₀, hbucket₁⟩ :=
    of_decide_eq_true (Except.ok.inj hrun)
  have hreach := ((Reachable.empty hempty).call 2 _ hfirst).call 2 _ hsecond
  have hhome : ∀ n, probeAt n (home (fun _ => 257) 1) 0 = 1 % n := fun n => rfl
  have hempty₀ : EmptyAt (fun _ => 257) m 1 0 := ⟨15, by rw [hhome, hlength]; exact hbyte⟩
  have hfirst' : m.At 1 0 1 5 := ⟨by rw [hbyte₀]; decide, hbucket₀⟩
  have hsecond' : m.At 1 1 1 6 := ⟨by rw [hbyte₁]; decide, hbucket₁⟩
  have hchained : m.Chained (home (fun _ => 257) 1) 1 :=
    ⟨0, by rw [hhome, hlength], fun _ hj => absurd hj (Nat.not_lt_zero _)⟩
  have halone := (h _ m 1 hreach ⟨0, hempty₀⟩).alone hreach.tidy.toSound hempty₀
  exact absurd (halone 1 0 1 5 6 hchained hfirst' hsecond') (by decide)

end runs
end CoreCommon.Map
