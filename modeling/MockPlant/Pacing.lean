import Mathlib

/-!
Sequences of instants. Instants that are at least some distance apart move on by as many
distances as there are steps, so only so many of them come before a deadline; of instants
up to a last one there is always one that was passed last.
-/
namespace MockPlant.Pacing

variable {K : Type*} [Field K] [LinearOrder K] [IsStrictOrderedRing K] {instant : ℕ → K} {d : K} {n : ℕ}

/-- The first steps of a sequence are at least `d` long. -/
def Spaced (instant : ℕ → K) (d : K) (n : ℕ) : Prop := ∀ i < n, instant i + d ≤ instant (i + 1)

theorem Spaced.since (spaced : Spaced instant d n) : instant 0 + n * d ≤ instant n := by
  induction n with
  | zero => simp
  | succ n ih =>
    have before := ih fun i inside => spaced i (Nat.lt_succ_of_lt inside)
    have last := spaced n (Nat.lt_succ_self n)
    calc instant 0 + ((n + 1 : ℕ) : K) * d = instant 0 + n * d + d := by push_cast; ring
      _ ≤ instant n + d := by gcongr
      _ ≤ instant (n + 1) := last

/-- As many steps as make up the way to a deadline reach it. -/
theorem Spaced.reaches (spaced : Spaced instant d n) {deadline : K} (enough : deadline ≤ instant 0 + n * d) :
    deadline ≤ instant n := enough.trans spaced.since

omit [Field K] [IsStrictOrderedRing K] in
/-- The last instant that has been passed. -/
theorem last_passed {t : K} (first : instant 0 ≤ t) : ∀ n, ∃ i ≤ n, instant i ≤ t ∧ (i = n ∨ t < instant (i + 1))
  | 0 => ⟨0,le_rfl,first,.inl rfl⟩
  | n + 1 => by
    obtain ⟨i,bound,passed,rfl | ahead⟩ := last_passed first n
    · rcases le_or_gt (instant (i + 1)) t with next | ahead
      · exact ⟨i + 1,le_rfl,next,.inl rfl⟩
      · exact ⟨i,i.le_succ,passed,.inr ahead⟩
    · exact ⟨i,bound.trans n.le_succ,passed,.inr ahead⟩

end MockPlant.Pacing
