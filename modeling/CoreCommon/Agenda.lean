import Mathlib

/-! Agendas: entries that are handled from the front, while what is handled brings in new ones. -/
namespace CoreCommon.Agenda
variable {α σ : Type}

/-- The state after handling the entries one after the other, and what they have brought in. -/
def run (handle : σ → α → σ × List α) : σ → List α → σ × List α
  | st, [] => (st, [])
  | st, a :: done => ((run handle (handle st a).1 done).1,
      (handle st a).2 ++ (run handle (handle st a).1 done).2)

/-- An agenda that is kept in order by `r`, whatever the order of entries that are equal, and the
entries in the order in which they are handled. -/
inductive Handled (r : α → α → Prop) (handle : σ → α → σ × List α) : σ → List α → List α → Prop
  | nil {st} : Handled r handle st [] []
  | cons {st a l l' done} (hperm : l'.Perm ((handle st a).2 ++ l)) (hsorted : l'.Pairwise r)
      (hrest : Handled r handle (handle st a).1 l' done) : Handled r handle st (a :: l) (a :: done)

namespace Handled
variable {r : α → α → Prop} {handle : σ → α → σ × List α} {st : σ} {l done : List α}

/-- Nothing is lost and nothing is handled twice. -/
lemma perm (h : Handled r handle st l done) : done.Perm (l ++ (run handle st done).2) := by
  induction h with
  | nil => exact List.Perm.refl _
  | @cons st a l l' done hperm _ _ ih =>
    refine (List.Perm.cons a (ih.trans (hperm.append_right _))).trans ?_
    rw [run, List.cons_append]
    refine List.Perm.cons a ?_
    rw [← List.append_assoc]
    exact List.perm_append_comm.append_right _

/-- What is handled first is before all that is left, when nothing goes back. -/
lemma sorted [IsTrans α r] (h : Handled r handle st l done) (hl : l.Pairwise r)
    (hforward : ∀ st a, ∀ b ∈ (handle st a).2, r a b) : done.Pairwise r := by
  have hafter : ∀ {st l done}, Handled r handle st l done → ∀ a, (∀ b ∈ l, r a b) →
      ∀ b ∈ done, r a b := by
    intro st l done h
    induction h with
    | nil =>
      intro a _ b hb
      cases hb
    | @cons st c l l' done hperm _ _ ih =>
      intro a ha b hb
      have hac := ha c List.mem_cons_self
      obtain rfl | hb := List.mem_cons.1 hb
      · exact hac
      · refine ih a (fun d hd => ?_) b hb
        obtain hd | hd := List.mem_append.1 (hperm.mem_iff.1 hd)
        · exact IsTrans.trans a c d hac (hforward st c d hd)
        · exact ha d (List.mem_cons_of_mem _ hd)
  induction h with
  | nil => exact List.Pairwise.nil
  | @cons st a l l' done hperm hsorted hrest ih =>
    refine List.pairwise_cons.2 ⟨hafter hrest a fun b hb => ?_, ih hsorted⟩
    obtain hb | hb := List.mem_append.1 (hperm.mem_iff.1 hb)
    · exact hforward st a b hb
    · exact List.rel_of_pairwise_cons hl hb

end Handled
end CoreCommon.Agenda
