import CoreCommon.Fault

/-! When layers are cleared. Drawing calls are left out; a call returns the layers that it
cleared. `use` and `clear` call each other and run on fuel. -/
namespace CoreCommon

/-- `Window::in_use`, `swapped`, `cleared`, and `Layer::cleared` of every layer. -/
structure Window (ι : Type) where
  inUse : Option ι
  swapped : Bool
  cleared : Bool
  layers : ι → Bool

namespace Window
variable {ι : Type} [DecidableEq ι]

/-- The constructors; that of the window does not set `cleared`. -/
def start (cleared : Bool) : Window ι := ⟨none, false, cleared, fun _ => !false⟩

mutual

def use : ℕ → Window ι → Run (Window ι × List ι)
  | 0, _ => .error .diverges
  | fuel + 1, w =>
    let w := if w.inUse.isSome then { w with inUse := none } else w
    if w.cleared ≠ w.swapped then clear fuel w else .ok (w, [])

def clear : ℕ → Window ι → Run (Window ι × List ι)
  | 0, _ => .error .diverges
  | fuel + 1, w =>
    let w := { w with cleared := w.swapped }
    if w.inUse.isSome then use fuel w else .ok (w, [])

end

mutual

def layerUse : ℕ → Window ι → ι → Run (Window ι × List ι)
  | 0, _, _ => .error .diverges
  | fuel + 1, w, a =>
    if w.inUse ≠ some a then
      let w := { w with inUse := some a }
      if w.layers a ≠ w.swapped then layerClear fuel w a else .ok (w, [])
    else .ok (w, [])

def layerClear : ℕ → Window ι → ι → Run (Window ι × List ι)
  | 0, _, _ => .error .diverges
  | fuel + 1, w, a =>
    let w := { w with layers := Function.update w.layers a w.swapped }
    if w.inUse ≠ some a then do
      let (w, drawn) ← layerUse fuel w a
      .ok (w, drawn ++ [a])
    else .ok (w, [a])

end

def swap (fuel : ℕ) (w : Window ι) : Run (Window ι × List ι) := do
  let (w, drawn) ← w.use fuel
  .ok ({ w with swapped := !w.swapped }, drawn)

/-- `Layer::channel`. -/
def channel (fuel : ℕ) (w : Window ι) (a : ι) : Run (Window ι × List ι) :=
  if w.inUse = some a then w.use fuel else .ok (w, [])

inductive Call (ι : Type)
  | use
  | swap
  | layerUse (a : ι)
  | channel (a : ι)
  deriving DecidableEq

def call (fuel : ℕ) (w : Window ι) : Call ι → Run (Window ι × List ι)
  | .use => w.use fuel
  | .swap => w.swap fuel
  | .layerUse a => w.layerUse fuel a
  | .channel a => w.channel fuel a

/-- The state after the calls. -/
def run (fuel : ℕ) : Window ι → List (Call ι) → Run (Window ι)
  | w, [] => .ok w
  | w, c :: l => do
    let (w, _) ← w.call fuel c
    run fuel w l

/-- The layer has not been used since the last swap. -/
def First (a : ι) (l : List (Call ι)) : Prop :=
  ∀ l₁ l₂, l = l₁ ++ .layerUse a :: l₂ → .swap ∈ l₂

/-- All calls end; the first use of a layer after a swap clears it, further uses before the
next swap do not. -/
def ClearsOnce (cleared : Bool) (l : List (Call ι)) : Prop :=
  ∃ n, ∀ fuel ≥ n, (∃ w, run fuel (start cleared) l = .ok w) ∧
    ∀ l₁ a l₂, l = l₁ ++ .layerUse a :: l₂ → .swap ∈ l₁ →
      ∃ w w' drawn, run fuel (start cleared) l₁ = .ok w ∧ w.layerUse fuel a = .ok (w', drawn) ∧
        (First a l₁ → drawn = [a]) ∧ (¬ First a l₁ → drawn = [])

/-- The number of swaps before the first use of a layer is even, and that between two
consecutive uses in different frames is odd. -/
def OddGaps (l : List (Call ι)) : Prop :=
  ∀ l₁ a l₂, l = l₁ ++ .layerUse a :: l₂ →
    (.layerUse a ∉ l₁ → Even (l₁.count .swap)) ∧
      ∀ l₃ l₄, l₁ = l₃ ++ .layerUse a :: l₄ → .layerUse a ∉ l₄ → .swap ∈ l₄ →
        Odd (l₄.count .swap)

/-! ### Calls -/

section calls
variable {w : Window ι} {fuel : ℕ} {a : ι}

omit [DecidableEq ι] in
lemma use_eq (hfuel : 2 ≤ fuel) :
    w.use fuel = .ok ({ w with inUse := none, cleared := w.swapped }, []) := by
  obtain ⟨fuel, rfl⟩ := Nat.exists_eq_add_of_le' hfuel
  obtain ⟨inUse, swapped, cleared, layers⟩ := w
  cases inUse <;> by_cases h : cleared = swapped <;> simp [use, clear, h]

omit [DecidableEq ι] in
lemma swap_eq (hfuel : 2 ≤ fuel) :
    w.swap fuel = .ok (⟨none, !w.swapped, w.swapped, w.layers⟩, []) := by
  unfold swap
  rw [use_eq hfuel]
  rfl

lemma layerUse_eq (hfuel : 2 ≤ fuel) : w.layerUse fuel a = if w.inUse = some a then .ok (w, [])
    else .ok ({ w with inUse := some a, layers := Function.update w.layers a w.swapped },
      if w.layers a = w.swapped then [] else [a]) := by
  obtain ⟨fuel, rfl⟩ := Nat.exists_eq_add_of_le' hfuel
  obtain ⟨inUse, swapped, cleared, layers⟩ := w
  by_cases huse : inUse = some a
  · simp [layerUse, huse]
  · by_cases h : layers a = swapped
    · subst h
      simp [layerUse, huse]
    · simp [layerUse, layerClear, huse, h]

lemma channel_eq (hfuel : 2 ≤ fuel) : w.channel fuel a =
    .ok (if w.inUse = some a then { w with inUse := none, cleared := w.swapped } else w, []) := by
  unfold channel
  split_ifs
  · exact use_eq hfuel
  · rfl

lemma run_append (w : Window ι) (l₁ l₂ : List (Call ι)) :
    run fuel w (l₁ ++ l₂) = run fuel w l₁ >>= fun w' => run fuel w' l₂ := by
  induction l₁ generalizing w with
  | nil => rfl
  | cons c l₁ ih => simp [run, ih]

end calls

/-! ### Runs -/

section runs
variable {w w' : Window ι} {fuel : ℕ} {a : ι} {l l₁ l₂ : List (Call ι)} {c : Call ι}

omit [DecidableEq ι] in
/-- The last use of a layer, if there is one. -/
lemma exists_last_use (a : ι) (l : List (Call ι)) :
    .layerUse a ∉ l ∨ ∃ l₁ l₂, l = l₁ ++ .layerUse a :: l₂ ∧ .layerUse a ∉ l₂ := by
  induction l using List.reverseRecOn with
  | nil => exact .inl List.not_mem_nil
  | append_singleton l c ih =>
    by_cases hc : c = .layerUse a
    · exact .inr ⟨l, [], by rw [hc], List.not_mem_nil⟩
    · rcases ih with hnone | ⟨l₁, l₂, rfl, hl₂⟩
      · refine .inl fun h => ?_
        rcases List.mem_append.1 h with h | h
        · exact hnone h
        · exact hc (List.mem_singleton.1 h).symm
      · refine .inr ⟨l₁, l₂ ++ [c], by simp, fun h => ?_⟩
        rcases List.mem_append.1 h with h | h
        · exact hl₂ h
        · exact hc (List.mem_singleton.1 h).symm

omit [DecidableEq ι] in
lemma split_snoc {x : Call ι} (h : l ++ [c] = l₁ ++ x :: l₂) :
    (l₂ = [] ∧ x = c ∧ l₁ = l) ∨ ∃ l₃, l₂ = l₃ ++ [c] ∧ l = l₁ ++ x :: l₃ := by
  cases l₂ using List.reverseRecOn with
  | nil =>
    obtain ⟨rfl, hc⟩ := List.append_inj' h rfl
    exact .inl ⟨rfl, (List.singleton_inj.1 hc).symm, rfl⟩
  | append_singleton l₃ d =>
    rw [← List.cons_append, ← List.append_assoc] at h
    obtain ⟨rfl, hc⟩ := List.append_inj' h rfl
    exact .inr ⟨l₃, by rw [List.singleton_inj.1 hc], rfl⟩

/-- What the two booleans and `in_use` say about the calls so far. -/
structure Tracks (l : List (Call ι)) (w : Window ι) : Prop where
  swapped : w.swapped = decide (Odd (l.count .swap))
  unused : ∀ a, .layerUse a ∉ l → w.layers a = true
  used : ∀ a l₁ l₂, l = l₁ ++ .layerUse a :: l₂ → .layerUse a ∉ l₂ →
    w.layers a = decide (Odd (l₁.count .swap))
  inUse : ∀ a, w.inUse = some a → ∃ l₁ l₂, l = l₁ ++ .layerUse a :: l₂ ∧ .swap ∉ l₂

lemma tracks_start (cleared : Bool) : Tracks [] (start cleared : Window ι) :=
  ⟨rfl, fun _ _ => rfl, fun a l₁ l₂ h => by simp at h, fun a h => nomatch h⟩

/-- A call that uses no layer and does not swap. -/
lemma Tracks.other (hw : Tracks l w) (hc : ∀ a, c ≠ .layerUse a) (hswap : c ≠ .swap)
    (hswapped : w'.swapped = w.swapped) (hlayers : w'.layers = w.layers)
    (hinUse : w'.inUse = none ∨ w'.inUse = w.inUse) : Tracks (l ++ [c]) w' := by
  refine ⟨?_, fun a ha => ?_, fun a l₁ l₂ hl hlast => ?_, fun a ha => ?_⟩
  · rw [hswapped, hw.swapped, List.count_append, List.count_singleton]
    simp [hswap]
  · rw [hlayers]
    exact hw.unused a fun h => ha (List.mem_append_left _ h)
  · rcases split_snoc hl with ⟨-, hx, -⟩ | ⟨l₃, rfl, rfl⟩
    · exact absurd hx.symm (hc a)
    · rw [hlayers]
      exact hw.used a l₁ l₃ rfl fun h => hlast (List.mem_append_left _ h)
  · rcases hinUse with hnone | hsame
    · exact absurd (hnone.symm.trans ha) nofun
    · obtain ⟨l₁, l₂, rfl, hl₂⟩ := hw.inUse a (hsame ▸ ha)
      refine ⟨l₁, l₂ ++ [c], by simp, fun h => ?_⟩
      rcases List.mem_append.1 h with h | h
      · exact hl₂ h
      · exact hswap (List.mem_singleton.1 h).symm

lemma Tracks.swap (hw : Tracks l w) (hswapped : w'.swapped = !w.swapped)
    (hlayers : w'.layers = w.layers) (hinUse : w'.inUse = none) : Tracks (l ++ [.swap]) w' := by
  refine ⟨?_, fun a ha => ?_, fun a l₁ l₂ hl hlast => ?_, fun a ha => ?_⟩
  · rw [hswapped, hw.swapped, List.count_append, List.count_singleton_self]
    simp only [Nat.odd_add_one, decide_not]
  · rw [hlayers]
    exact hw.unused a fun h => ha (List.mem_append_left _ h)
  · rcases split_snoc hl with ⟨-, hx, -⟩ | ⟨l₃, rfl, rfl⟩
    · cases hx
    · rw [hlayers]
      exact hw.used a l₁ l₃ rfl fun h => hlast (List.mem_append_left _ h)
  · exact absurd (hinUse.symm.trans ha) nofun

lemma Tracks.layerUse (hw : Tracks l w) (hswapped : w'.swapped = w.swapped)
    (hlayers : w'.layers = Function.update w.layers a w.swapped) (hinUse : w'.inUse = some a) :
    Tracks (l ++ [.layerUse a]) w' := by
  have hne : ∀ {b}, .layerUse b ∉ l ++ [.layerUse a] → b ≠ a := by
    rintro b hb rfl
    exact hb (by simp)
  refine ⟨?_, fun b hb => ?_, fun b l₁ l₂ hl hlast => ?_, fun b hb => ?_⟩
  · rw [hswapped, hw.swapped, List.count_append, List.count_singleton]
    simp
  · rw [hlayers, Function.update_of_ne (hne hb)]
    exact hw.unused b fun h => hb (List.mem_append_left _ h)
  · rw [hlayers]
    rcases split_snoc hl with ⟨-, hx, rfl⟩ | ⟨l₃, rfl, rfl⟩
    · obtain rfl := Call.layerUse.inj hx
      rw [Function.update_self, hw.swapped]
    · have hba : b ≠ a := by
        rintro rfl
        exact hlast (by simp)
      rw [Function.update_of_ne hba]
      exact hw.used b l₁ l₃ rfl fun h => hlast (List.mem_append_left _ h)
  · obtain rfl := Option.some.inj (hinUse.symm.trans hb)
    exact ⟨l, [], rfl, List.not_mem_nil⟩

omit [DecidableEq ι] in
lemma first_iff (l₁ : List (Call ι)) (hlast : .layerUse a ∉ l₂) : First a (l₁ ++ .layerUse a :: l₂) ↔ .swap ∈ l₂ := by
  constructor
  · exact fun h => h l₁ l₂ rfl
  · intro hswap l₃ l₄ h
    rcases List.append_eq_append_iff.1 h with ⟨l, rfl, hl⟩ | ⟨l, rfl, hl⟩
    · cases l with
      | nil => exact (List.cons.inj hl).2 ▸ hswap
      | cons c l =>
        obtain ⟨-, rfl⟩ := List.cons.inj hl
        exact absurd (by simp) hlast
    · cases l with
      | nil => exact (List.cons.inj hl).2 ▸ hswap
      | cons c l =>
        obtain ⟨-, rfl⟩ := List.cons.inj hl
        exact List.mem_append_right _ (List.mem_cons_of_mem _ hswap)

lemma count_swap (l₁ l₂ : List (Call ι)) (a : ι) :
    (l₁ ++ .layerUse a :: l₂).count .swap = l₁.count .swap + l₂.count .swap := by
  rw [List.count_append, List.count_cons_of_ne (by simp)]

/-- The layer would be cleared after an odd number of swaps since its last use. -/
lemma Tracks.layers_ne_iff (hw : Tracks (l₁ ++ .layerUse a :: l₂) w) (hlast : .layerUse a ∉ l₂) :
    w.layers a ≠ w.swapped ↔ Odd (l₂.count .swap) := by
  rw [hw.used a l₁ l₂ rfl hlast, hw.swapped, Ne, decide_eq_decide, count_swap, Nat.odd_add,
    ← Nat.not_odd_iff_even]
  tauto

/-- A layer not used before would be cleared after an even number. -/
lemma Tracks.layers_ne_iff_unused (hw : Tracks l w) (ha : .layerUse a ∉ l) :
    w.layers a ≠ w.swapped ↔ Even (l.count .swap) := by
  rw [hw.unused a ha, hw.swapped, ne_comm, ne_eq, decide_eq_true_eq, Nat.not_odd_iff_even]

/-- A layer that is used again before the next swap. -/
lemma Tracks.layers_eq (hw : Tracks l w) (ha : ¬ First a l) : w.layers a = w.swapped := by
  rcases exists_last_use a l with hnone | ⟨l₁, l₂, rfl, hlast⟩
  · refine absurd (fun l₁ l₂ hl => ?_) ha
    exact absurd (hl ▸ by simp) hnone
  · by_contra hne
    rw [first_iff l₁ hlast, ← List.count_pos_iff, Nat.pos_iff_ne_zero, not_not] at ha
    have hodd := (hw.layers_ne_iff hlast).1 hne
    rw [ha] at hodd
    exact absurd hodd (by decide)

lemma Tracks.not_first (hw : Tracks l w) (ha : w.inUse = some a) : ¬ First a l := by
  obtain ⟨l₁, l₂, rfl, hl₂⟩ := hw.inUse a ha
  exact fun h => hl₂ (h l₁ l₂ rfl)

lemma Tracks.call (hw : Tracks l w) (hfuel : 2 ≤ fuel) (c : Call ι) :
    ∃ w' drawn, w.call fuel c = .ok (w', drawn) ∧ Tracks (l ++ [c]) w' := by
  cases c with
  | use => exact ⟨_, _, use_eq hfuel, hw.other nofun nofun rfl rfl (.inl rfl)⟩
  | swap => exact ⟨_, _, swap_eq hfuel, hw.swap rfl rfl rfl⟩
  | channel a =>
    refine ⟨_, _, channel_eq hfuel, ?_⟩
    split_ifs
    · exact hw.other nofun nofun rfl rfl (.inl rfl)
    · exact hw.other nofun nofun rfl rfl (.inr rfl)
  | layerUse a =>
    by_cases ha : w.inUse = some a
    · have hsame := hw.layers_eq (hw.not_first ha)
      exact ⟨w, [], (layerUse_eq hfuel).trans (if_pos ha),
        hw.layerUse rfl (hsame ▸ (Function.update_eq_self a w.layers).symm) ha⟩
    · exact ⟨_, _, (layerUse_eq hfuel).trans (if_neg ha), hw.layerUse rfl rfl rfl⟩

/-- Every run ends, whatever the window's `cleared` was. -/
lemma run_tracks (cleared : Bool) (hfuel : 2 ≤ fuel) (l : List (Call ι)) :
    ∃ w, run fuel (start cleared) l = .ok w ∧ Tracks l w := by
  induction l using List.reverseRecOn with
  | nil => exact ⟨_, rfl, tracks_start cleared⟩
  | append_singleton l c ih =>
    obtain ⟨w, hrun, hw⟩ := ih
    obtain ⟨w', drawn, hcall, hw'⟩ := hw.call hfuel c
    refine ⟨w', ?_, hw'⟩
    rw [run_append, hrun, Run.bind_ok, run, hcall, Run.bind_ok]
    rfl

/-- What the use of a layer clears. -/
lemma Tracks.layerUse_drawn (hw : Tracks l w) (hfuel : 2 ≤ fuel) (a : ι) :
    ∃ w', w.layerUse fuel a = .ok (w', if w.layers a = w.swapped then [] else [a]) := by
  by_cases ha : w.inUse = some a
  · refine ⟨w, (layerUse_eq hfuel).trans ?_⟩
    rw [if_pos ha, if_pos (hw.layers_eq (hw.not_first ha))]
  · exact ⟨_, (layerUse_eq hfuel).trans (if_neg ha)⟩

/-- For every sequence of calls, and whatever the window's `cleared` was. -/
theorem clearsOnce_iff (cleared : Bool) (l : List (Call ι)) : ClearsOnce cleared l ↔ OddGaps l := by
  constructor
  · rintro ⟨n, hn⟩ l₁ a l₂ hl
    have hfuel : 2 ≤ max n 2 := le_max_right _ _
    obtain ⟨w, hrun, hw⟩ := run_tracks cleared hfuel l₁
    obtain ⟨w', huse⟩ := hw.layerUse_drawn hfuel a
    -- a first use that comes after a swap has cleared the layer
    have hcleared : .swap ∈ l₁ → First a l₁ → w.layers a ≠ w.swapped := by
      intro hswap hfirst heq
      obtain ⟨w₁, w₁', drawn, hrun₁, huse₁, hdrawn, -⟩ := (hn _ (le_max_left _ _)).2 l₁ a l₂ hl hswap
      obtain rfl := Except.ok.inj (hrun₁.symm.trans hrun)
      have hnil := (Prod.mk.inj (Except.ok.inj (huse₁.symm.trans huse))).2
      rw [if_pos heq, hdrawn hfirst] at hnil
      cases hnil
    constructor
    · intro hunused
      by_cases hswap : .swap ∈ l₁
      · have hfirst : First a l₁ := fun l₃ l₄ h => absurd (h ▸ by simp) hunused
        exact (hw.layers_ne_iff_unused hunused).1 (hcleared hswap hfirst)
      · rw [List.count_eq_zero_of_not_mem hswap]
        exact Even.zero
    · rintro l₃ l₄ rfl hlast hswap
      have hfirst := (first_iff l₃ hlast).2 hswap
      have hmem : .swap ∈ l₃ ++ .layerUse a :: l₄ := by simp [hswap]
      exact (hw.layers_ne_iff hlast).1 (hcleared hmem hfirst)
  · intro h
    refine ⟨2, fun fuel hfuel => ⟨?_, fun l₁ a l₂ hl _ => ?_⟩⟩
    · obtain ⟨w, hrun, -⟩ := run_tracks cleared hfuel l
      exact ⟨w, hrun⟩
    · obtain ⟨w, hrun, hw⟩ := run_tracks cleared hfuel l₁
      obtain ⟨w', huse⟩ := hw.layerUse_drawn hfuel a
      refine ⟨w, w', _, hrun, huse, fun hfirst => if_neg ?_, fun hfirst => if_pos ?_⟩
      · obtain ⟨heven, hodd⟩ := h l₁ a l₂ hl
        rcases exists_last_use a l₁ with hunused | ⟨l₃, l₄, rfl, hlast⟩
        · exact (hw.layers_ne_iff_unused hunused).2 (heven hunused)
        · exact (hw.layers_ne_iff hlast).2 (hodd l₃ l₄ rfl hlast ((first_iff l₃ hlast).1 hfirst))
      · exact hw.layers_eq hfirst

/-- A layer that is left alone for one frame. -/
theorem second_frame_not_cleared : ¬ ∀ (cleared : Bool) (l : List (Call Unit)), ClearsOnce cleared l := by
  intro h
  obtain ⟨n, hn⟩ := h false [.layerUse (), .swap, .swap, .layerUse ()]
  have hfuel : 2 ≤ max n 2 := le_max_right _ _
  obtain ⟨w, w', drawn, hrun, huse, hdrawn, -⟩ :=
    (hn _ (le_max_left _ _)).2 [.layerUse (), .swap, .swap] () [] rfl (by simp)
  obtain ⟨w₁, hrun₁, hw⟩ := run_tracks false hfuel [.layerUse (), .swap, .swap]
  obtain rfl := Except.ok.inj (hrun.symm.trans hrun₁)
  have hlast : .layerUse () ∉ ([.swap, .swap] : List (Call Unit)) := by simp
  have hfirst : First () [.layerUse (), .swap, .swap] := (first_iff [] hlast).2 (by simp)
  have hsame : w.layers () = w.swapped :=
    not_not.1 fun hne => absurd ((@Tracks.layers_ne_iff _ _ w () [] _ hw hlast).1 hne) (by decide)
  obtain ⟨w₂, huse₂⟩ := hw.layerUse_drawn hfuel ()
  have hnil := (Prod.mk.inj (Except.ok.inj (huse.symm.trans huse₂))).2
  rw [hdrawn hfirst, if_pos hsame] at hnil
  cases hnil

end runs
end Window
end CoreCommon
