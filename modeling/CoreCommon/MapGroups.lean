import CoreCommon.MapStorage

/-! The groups that a probe visits: all of the table, once each, before any again. -/
namespace CoreCommon.Map
variable {K V : Type} {multiple : Bool} {m m' : Map K V multiple} {hash : K → UInt64}

/-- The group in which a probe stands after `j` times `operator++`. -/
def Probe.group (m : Map K V multiple) (p : Probe) (j : ℕ) : ℕ := ((Probe.next m)^[j] p).i

lemma Probe.next_iterate (hsize : m.controlBytes.length ∣ 2 ^ 32) (h : UInt64) (j : ℕ) :
    ((Probe.next m)^[j] (m.probe h)).i = probeAt m.controlBytes.length (h >>> 8).toNat j ∧
      ((Probe.next m)^[j] (m.probe h)).probeI = j % 2 ^ 32 := by
  induction j with
  | zero => exact ⟨rfl, rfl⟩
  | succ j ih =>
    rw [Function.iterate_succ_apply', ← probeAt_succ hsize, ← ih.1]
    refine ⟨?_, ?_⟩
    · rw [← ih.2]
      rfl
    · show (_ + 1) % 2 ^ 32 = _
      rw [ih.2, Nat.mod_add_mod]

/-- Every group is where some hash starts. -/
lemma exists_probe_start (hsize : m.controlBytes.length ≤ 2 ^ 31) {g : ℕ}
    (hg : g < m.controlBytes.length) : ∃ h, (m.probe h).i = g := by
  refine ⟨UInt64.ofNat g <<< 8, ?_⟩
  have hshift : ((UInt64.ofNat g <<< 8) >>> 8).toNat = g := by
    rw [UInt64.toNat_shiftRight, UInt64.toNat_shiftLeft, UInt64.toNat_ofNat_of_lt' (by
      rw [UInt64.size]; omega)]
    simp only [UInt64.reduceToNat, Nat.reduceMod, Nat.shiftLeft_eq, Nat.shiftRight_eq_div_pow]
    omega
  show ((UInt64.ofNat g <<< 8) >>> 8).toNat % _ = g
  rw [hshift, Nat.mod_eq_of_lt hg]

/-- The size is a power of two, and from every start the first `size()` groups are all
groups, each once. -/
structure ProbesAll (m : Map K V multiple) : Prop where
  size : ∃ e, m.controlBytes.length = 2 ^ e
  starts : ∀ g < m.controlBytes.length, ∃ h, (m.probe h).group m 0 = g
  visits : ∀ h, Set.BijOn ((m.probe h).group m) (Set.Iio m.controlBytes.length)
    (Set.Iio m.controlBytes.length)

lemma Sound.probesAll (hm : m.Sound hash) : m.ProbesAll := by
  obtain ⟨e, hle, he⟩ := hm.size
  have hgroup : ∀ h j, (m.probe h).group m j = probeAt (2 ^ e) (h >>> 8).toNat j := fun h j =>
    he ▸ (Probe.next_iterate hm.dvd h j).1
  refine ⟨⟨e, he⟩, fun g hg => exists_probe_start ?_ hg, fun h => ⟨fun j _ => ?_, ?_, ?_⟩⟩
  · exact he ▸ Nat.pow_le_pow_right two_pos hle
  · rw [hgroup, he]
    exact probeAt_lt (Nat.two_pow_pos e) _ _
  · intro i hi j hj hij
    rw [hgroup, hgroup] at hij
    rw [he] at hi hj
    exact probeAt_injective hi hj hij
  · intro g hg
    rw [he] at hg ⊢
    obtain ⟨j, hj, hgj⟩ := exists_probeAt (h >>> 8).toNat hg
    exact ⟨j, hj, (hgroup h j).trans hgj⟩

section runs
variable [DecidableEq K] [Inhabited K] [Inhabited V]

/-- `FindIterator::remove` at an entry is a removal at that entry. -/
lemma Reachable.findRemove (hm : Reachable hash m) {it : FindIterator} (hc : it.probe.c < 16)
    (hlive : IsLive (m.byte it.probe.i ⟨it.probe.c, hc⟩)) (h : it.probe.remove m = .ok m') :
    Reachable hash m' := by
  have hdiv : (it.probe.i * 16 + it.probe.c) / 16 = it.probe.i := by omega
  have hmod : (it.probe.i * 16 + it.probe.c) % 16 = it.probe.c := by omega
  have hentry : Iterator.OnEntry m ⟨it.probe.i * 16 + it.probe.c, it.probe.i⟩ :=
    ⟨hdiv.symm, (byteAt_slot m it.probe.i ⟨it.probe.c, hc⟩).symm ▸ hlive⟩
  refine hm.removeAt hentry ?_
  unfold Probe.remove at h
  rw [dif_pos hc] at h
  simp only [Iterator.remove, hmod]
  exact h

/-- In every state reached by completed calls. -/
theorem reachable_probesAll (hm : Reachable hash m) : m.ProbesAll := hm.tidy.toSound.probesAll

/-- Eight groups, after an insertion and a removal. -/
theorem reachable_probesAll_eight : ∃ m : Map ℕ ℕ false, m.controlBytes.length = 8 ∧
    m.ProbesAll := by
  have hrun : (ofCapacity (fun _ => 257) 3 >>= fun m₀ : Map ℕ ℕ false =>
      m₀.apply (fun _ => 257) 2 (.insert 1 5) >>= fun x =>
        x.1.apply (fun _ => 257) 2 (.remove 1) >>= fun y => .ok y.1.controlBytes.length) =
      .ok 8 := by
    decide +kernel
  obtain ⟨m₀, hempty, hrun⟩ := Run.bind_eq_ok.1 hrun
  obtain ⟨⟨m₁, r₁⟩, hinsert, hrun⟩ := Run.bind_eq_ok.1 hrun
  obtain ⟨⟨m₂, r₂⟩, hremove, hrun⟩ := Run.bind_eq_ok.1 hrun
  exact ⟨m₂, Except.ok.inj hrun, reachable_probesAll
    (((Reachable.empty hempty).call 2 _ hinsert).call 2 _ hremove)⟩

end runs
end CoreCommon.Map
