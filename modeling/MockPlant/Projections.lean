import MockPlant.Runs

/-!
A system seen as one of its parts. Every step of the whole shows as a few steps of the
part, or as none, so a run of the whole shows as a run of the part, and what holds of
all the part's runs holds in the whole.
-/
namespace MockPlant.Projections
open MockPlant.Runs

variable {σ τ α β ω : Type*} {step : σ → α → Option σ} {part : τ → β → Option τ}

/-- A step of the whole is, for the part, a run of what it shows. -/
def Projects (step : σ → α → Option σ) (part : τ → β → Option τ) (project : σ → τ) (shows : σ → α → σ → List β) : Prop :=
  ∀ s a t, step s a = some t → run part (project s) (shows s a t) = some (project t)

section
variable {project : σ → τ} {shows : σ → α → σ → List β} (projects : Projects step part project shows)
include projects

theorem Projects.run_log {s t : σ} {actions : List α} (reached : run step s actions = some t) :
    run part (project s) (log step shows s actions) = some (project t) := by
  induction actions generalizing s with
  | nil => cases reached; rfl
  | cons a rest ih =>
    obtain ⟨next,moved,later⟩ := Option.bind_eq_some_iff.mp reached
    simp only [log,moved]
    rw [run_append,projects s a next moved,Option.bind_some]
    exact ih later

/-- A condition on the steps of the whole that implies one on those of the part. -/
theorem Projects.along_log {P : σ → α → Prop} {Q : τ → β → Prop}
    (implies : ∀ s a t, step s a = some t → P s a → Along part Q (project s) (shows s a t)) {s t : σ} {actions : List α}
    (reached : run step s actions = some t) (along : Along step P s actions) :
    Along part Q (project s) (log step shows s actions) := by
  induction actions generalizing s with
  | nil => trivial
  | cons a rest ih =>
    obtain ⟨next,moved,later⟩ := Option.bind_eq_some_iff.mp reached
    simp only [log,moved]
    refine (along_append _ _ _).mpr ⟨implies s a next moved along.1,fun u shown => ?_⟩
    cases (projects s a next moved).symm.trans shown
    exact ih later (along.2 next moved)

end

/-- An entry of a log was shown by a step of the run, after the entries before it. -/
theorem log_split {observe : σ → α → σ → List ω} {s : σ} {actions : List α} {first rest : List ω} {x : ω}
    (split : log step observe s actions = first ++ x :: rest) :
    ∃ earlier a later t u before after, actions = earlier ++ a :: later ∧ run step s earlier = some t ∧
      step t a = some u ∧ observe t a u = before ++ x :: after ∧ first = log step observe s earlier ++ before := by
  induction actions generalizing s first with
  | nil => simp [log] at split
  | cons a remaining ih =>
    cases moved : step s a with
    | none => simp [log,moved] at split
    | some next =>
      simp only [log,moved] at split
      have further {shown more : List ω} (here : observe s a next = shown)
          (beyond : log step observe next remaining = more ++ x :: rest) (whole : first = shown ++ more) :
          ∃ earlier b later t u before after, a :: remaining = earlier ++ b :: later ∧ run step s earlier = some t ∧
            step t b = some u ∧ observe t b u = before ++ x :: after ∧ first = log step observe s earlier ++ before := by
        obtain ⟨earlier,b,later,t,u,before,after,rfl,reached,moved',shows,same⟩ := ih beyond
        refine ⟨a :: earlier,b,later,t,u,before,after,rfl,by rw [run,moved]; exact reached,moved',shows,?_⟩
        simp only [log,moved]
        rw [whole,same,here,List.append_assoc]
      rcases List.append_eq_append_iff.mp split with ⟨more,whole,beyond⟩ | ⟨shown,here,beyond⟩
      · exact further rfl beyond whole
      · cases shown with
        | nil =>
          rw [List.append_nil] at here
          have begins : log step observe next remaining = [] ++ x :: rest := beyond.symm
          exact further here begins (by simp)
        | cons y shown =>
          obtain ⟨rfl,_⟩ := List.cons.inj beyond
          exact ⟨[],a,remaining,s,next,first,shown,rfl,rfl,moved,here,rfl⟩

theorem mem_log {observe : σ → α → σ → List ω} {s : σ} {actions : List α} {x : ω} (shown : x ∈ log step observe s actions) :
    ∃ earlier a later t u, actions = earlier ++ a :: later ∧ run step s earlier = some t ∧ step t a = some u ∧
      x ∈ observe t a u := by
  obtain ⟨first,rest,split⟩ := List.append_of_mem shown
  obtain ⟨earlier,a,later,t,u,before,after,same,reached,moved,shows,_⟩ := log_split split
  exact ⟨earlier,a,later,t,u,same,reached,moved,by rw [shows]; simp⟩

/-- What every step shows has a property that its entries have. -/
theorem forall_mem_log {observe : σ → α → σ → List ω} {P : ω → Prop} {s : σ} {actions : List α}
    (shows : ∀ a ∈ actions, ∀ t u, step t a = some u → ∀ x ∈ observe t a u, P x) : ∀ x ∈ log step observe s actions, P x := by
  intro x shown
  obtain ⟨earlier,a,later,t,u,rfl,_,moved,inside⟩ := mem_log shown
  exact shows a (by simp) t u moved x inside

end MockPlant.Projections
