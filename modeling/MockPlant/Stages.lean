import Mathlib

/-!
A timer that goes through stages one after another. A tick adds to the time spent in the
present stage and ends the stage when its duration is reached; what a tick has left over
is lost, so a tick ends one stage at most. Each stage can so take less than one tick
longer than its duration, and never less than it.
-/
namespace MockPlant.Stages

/-- The durations of the present stage and of those to come, and the time spent in the
    present one. -/
structure Timer (α : Type*) where
  stages : List α
  elapsed : α

namespace Timer
variable {α : Type*} [Field α] [LinearOrder α]

def tick (t : Timer α) (dt : α) : Timer α :=
  match t.stages with
  | [] => t
  | d :: rest => if d ≤ t.elapsed + dt then ⟨rest,0⟩ else ⟨d :: rest,t.elapsed + dt⟩

def ticks (t : Timer α) (dts : List α) : Timer α := dts.foldl tick t

/-- Time is spent only in a stage, and less than its duration. -/
structure Sound (t : Timer α) : Prop where
  positive : ∀ d ∈ t.stages, 0 < d
  started : 0 ≤ t.elapsed
  inside : ∀ d ∈ t.stages.head?, t.elapsed < d
  finished : t.stages = [] → t.elapsed = 0

/-- The time that is still to be spent at least. -/
def remaining (t : Timer α) : α := t.stages.sum - t.elapsed

/-- The time that is to be spent at most, with ticks up to `most`. -/
def budget (most : α) (t : Timer α) : α := t.remaining + t.stages.length * most

@[simp] theorem ticks_nil (t : Timer α) : t.ticks [] = t := rfl

@[simp] theorem ticks_concat (t : Timer α) (dts : List α) (dt : α) : t.ticks (dts ++ [dt]) = (t.ticks dts).tick dt := by
  simp [ticks]

@[simp] theorem ticks_append (t : Timer α) (first second : List α) :
    t.ticks (first ++ second) = (t.ticks first).ticks second := by
  simp [ticks]

/-- A tick ends the present stage or leaves it present. -/
theorem tick_cons {t : Timer α} {d : α} {rest : List α} (present : t.stages = d :: rest) (dt : α) :
    (d ≤ t.elapsed + dt ∧ t.tick dt = ⟨rest,0⟩) ∨ (t.elapsed + dt < d ∧ t.tick dt = ⟨d :: rest,t.elapsed + dt⟩) := by
  rcases le_or_gt d (t.elapsed + dt) with reached | short
  · exact .inl ⟨reached,by simp [tick,present,reached]⟩
  · exact .inr ⟨short,by simp [tick,present,short.not_ge]⟩

theorem tick_nil {t : Timer α} (done : t.stages = []) (dt : α) : t.tick dt = t := by
  simp [tick,done]

/-- A timer that is done stays so. -/
theorem ticks_done {t : Timer α} (done : t.stages = []) (dts : List α) : t.ticks dts = t := by
  induction dts with
  | nil => rfl
  | cons dt rest ih => rw [ticks,List.foldl_cons,tick_nil done,← ticks,ih]

/-- A timer starts its first stage with no time spent. -/
theorem sound_start {stages : List α} (positive : ∀ d ∈ stages, 0 < d) : Sound ⟨stages,0⟩ where
  positive := positive
  started := le_rfl
  inside := fun d present => positive d (List.mem_of_mem_head? present)
  finished := fun _ => rfl

variable [IsStrictOrderedRing α]

theorem Sound.tick {t : Timer α} (sound : t.Sound) {dt : α} (forward : 0 ≤ dt) : (t.tick dt).Sound := by
  cases present : t.stages with
  | nil => rwa [tick_nil present]
  | cons d rest =>
    rcases tick_cons present dt with ⟨_,ended⟩ | ⟨short,stays⟩
    · rw [ended]
      exact sound_start fun d' later => sound.positive d' (by rw [present]; exact List.mem_cons_of_mem _ later)
    · rw [stays]
      refine ⟨present ▸ sound.positive,add_nonneg sound.started forward,?_,by simp⟩
      rintro d' ⟨⟩
      exact short

theorem Sound.ticks {t : Timer α} (sound : t.Sound) {dts : List α} (forward : ∀ dt ∈ dts, 0 ≤ dt) :
    (t.ticks dts).Sound := by
  induction dts generalizing t with
  | nil => exact sound
  | cons dt rest ih =>
    obtain ⟨here,later⟩ := List.forall_mem_cons.mp forward
    exact ih (sound.tick here) later

/-! ### How long the stages take -/

/-- A tick takes no more than itself off the time that remains. -/
theorem remaining_tick (t : Timer α) {dt : α} (forward : 0 ≤ dt) :
    t.remaining ≤ (t.tick dt).remaining + dt := by
  cases present : t.stages with
  | nil =>
    rw [tick_nil present]
    linarith
  | cons d rest =>
    rcases tick_cons present dt with ⟨reached,ended⟩ | ⟨_,stays⟩
    · simp only [ended,remaining,present,List.sum_cons]
      linarith
    · simp only [stays,remaining,present]
      linarith

/-- While there are stages a tick takes at least itself off the budget, and more when it
    ends a stage. -/
theorem budget_tick {t : Timer α} (sound : t.Sound) {most dt : α} (bounded : dt ≤ most) (going : t.stages ≠ []) :
    (t.tick dt).budget most + dt ≤ t.budget most ∧
      ((t.tick dt).stages.length < t.stages.length → (t.tick dt).budget most + dt < t.budget most) := by
  cases present : t.stages with
  | nil => exact absurd present going
  | cons d rest =>
    have inside := sound.inside d (by rw [present]; rfl)
    rcases tick_cons present dt with ⟨_,ended⟩ | ⟨_,stays⟩
    · have less : (t.tick dt).budget most + dt < t.budget most := by
        simp only [ended,budget,remaining,present,List.sum_cons,List.length_cons]
        push_cast
        linarith
      exact ⟨less.le,fun _ => less⟩
    · have same : (t.tick dt).budget most + dt = t.budget most := by
        simp only [stays,budget,remaining,present]
        ring
      exact ⟨same.le,by simp [stays]⟩

theorem remaining_ticks (t : Timer α) {dts : List α} (forward : ∀ dt ∈ dts, 0 ≤ dt) :
    t.remaining ≤ (t.ticks dts).remaining + dts.sum := by
  induction dts using List.reverseRecOn with
  | nil => simp
  | append_singleton dts dt ih =>
    simp only [List.forall_mem_append,List.forall_mem_singleton] at forward
    have before := ih forward.1
    have last := remaining_tick (t.ticks dts) forward.2
    rw [ticks_concat,List.sum_append,List.sum_singleton]
    linarith

/-- The stages are not over before the sum of their durations. -/
theorem sum_le_of_done {t : Timer α} (sound : t.Sound) {dts : List α} (forward : ∀ dt ∈ dts, 0 ≤ dt)
    (done : (t.ticks dts).stages = []) : t.remaining ≤ dts.sum := by
  have spent := remaining_ticks t forward
  have nothing : (t.ticks dts).remaining = 0 := by
    rw [remaining,done,(sound.ticks forward).finished done]
    simp
  linarith

/-- The timer has stages left at every prefix of the ticks. -/
def Going (t : Timer α) (dts : List α) : Prop := ∀ earlier, earlier <+: dts → (t.ticks earlier).stages ≠ []

omit [IsStrictOrderedRing α] in
/-- A timer that has stages left had some at every tick. -/
theorem going_of_last {t : Timer α} {dts : List α} (left : (t.ticks dts).stages ≠ []) : t.Going dts := by
  rintro earlier ⟨rest,rfl⟩ done
  rw [ticks_append,ticks_done done] at left
  exact left done

theorem budget_ticks {t : Timer α} (sound : t.Sound) {most : α} {dts : List α} (forward : ∀ dt ∈ dts, 0 ≤ dt)
    (bounded : ∀ dt ∈ dts, dt ≤ most) (going : t.Going dts) :
    (t.ticks dts).budget most + dts.sum ≤ t.budget most := by
  induction dts using List.reverseRecOn with
  | nil => simp
  | append_singleton dts dt ih =>
    simp only [List.forall_mem_append,List.forall_mem_singleton] at forward bounded
    have prior : t.Going dts := fun earlier pre => going earlier (pre.trans (List.prefix_append _ _))
    have before := ih forward.1 bounded.1 prior
    have last := (budget_tick (sound.ticks forward.1) bounded.2 (prior dts (List.prefix_refl _))).1
    rw [ticks_concat,List.sum_append,List.sum_singleton]
    linarith

/-- While there are stages left the time spent is below the budget. -/
theorem sum_lt_of_going {t : Timer α} (sound : t.Sound) {most : α} {dts : List α} (forward : ∀ dt ∈ dts, 0 ≤ dt)
    (bounded : ∀ dt ∈ dts, dt ≤ most) (nonnegative : 0 ≤ most) (going : t.Going dts) : dts.sum < t.budget most := by
  have spent := budget_ticks sound forward bounded going
  have left : 0 < (t.ticks dts).budget most := by
    have here := sound.ticks forward
    cases present : (t.ticks dts).stages with
    | nil => exact absurd present (going dts (List.prefix_refl _))
    | cons d rest =>
      have inside := here.inside d (by rw [present]; rfl)
      have later : 0 ≤ rest.sum :=
        List.sum_nonneg fun d' member => (here.positive d' (by rw [present]; exact List.mem_cons_of_mem _ member)).le
      have slack : 0 ≤ ((d :: rest).length : α) * most := mul_nonneg (Nat.cast_nonneg _) nonnegative
      simp only [budget,remaining,present,List.sum_cons]
      linarith
  linarith

/-- The tick that ends the last stage is within the budget too. -/
theorem sum_lt_of_done {t : Timer α} (sound : t.Sound) {most : α} {dts : List α} {dt : α}
    (forward : ∀ dt ∈ dts, 0 ≤ dt) (last : 0 ≤ dt) (bounded : ∀ dt ∈ dts, dt ≤ most) (lastBounded : dt ≤ most)
    (going : t.Going dts) (done : (t.ticks (dts ++ [dt])).stages = []) : (dts ++ [dt]).sum < t.budget most := by
  have spent := budget_ticks sound forward bounded going
  have here := sound.ticks forward
  have present := going dts (List.prefix_refl _)
  rw [ticks_concat] at done
  have ends := (budget_tick here lastBounded present).2 (by rw [done]; exact List.length_pos_iff.mpr present)
  have nothing : ((t.ticks dts).tick dt).budget most = 0 := by
    rw [budget,remaining,done,(here.tick last).finished done]
    simp
  rw [List.sum_append,List.sum_singleton]
  linarith

end Timer
end MockPlant.Stages
