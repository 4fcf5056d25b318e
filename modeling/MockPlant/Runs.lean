import Mathlib

/-!
Runs of a partial transition function: the state after a list of actions, what
holds at every step of a run, and what a run shows. A run is a prefix of longer
runs, so its properties go by induction on the last action.
-/
namespace MockPlant.Runs

variable {σ α ω : Type*} (step : σ → α → Option σ)

/-- The state after a list of actions, when every one of them is possible in turn. -/
def run : σ → List α → Option σ
  | s, [] => some s
  | s, a :: rest => (step s a).bind (fun t => run t rest)

/-- `P` holds of every state and action that a run of the list comes to. -/
def Along (P : σ → α → Prop) : σ → List α → Prop
  | _, [] => True
  | s, a :: rest => P s a ∧ ∀ t, step s a = some t → Along P t rest

/-- What a run of the list shows, step by step. -/
def log (observe : σ → α → σ → List ω) : σ → List α → List ω
  | _, [] => []
  | s, a :: rest =>
    match step s a with
    | none => []
    | some t => observe s a t ++ log observe t rest

variable {step}

instance Along.decidable (P : σ → α → Prop) [∀ s a, Decidable (P s a)] :
    ∀ (s : σ) (actions : List α), Decidable (Along step P s actions)
  | _, [] => isTrue trivial
  | s, a :: rest =>
    match found : step s a with
    | none => decidable_of_iff (P s a) (by simp [Along,found])
    | some t =>
      have := Along.decidable P t rest
      decidable_of_iff (P s a ∧ Along step P t rest) (by simp [Along,found])

theorem run_append (s : σ) (first second : List α) :
    run step s (first ++ second) = (run step s first).bind (fun t => run step t second) := by
  induction first generalizing s with
  | nil => rfl
  | cons a rest ih =>
    simp only [List.cons_append,run]
    cases step s a with
    | none => rfl
    | some t => exact ih t

theorem run_concat {s u : σ} {actions : List α} {a : α} :
    run step s (actions ++ [a]) = some u ↔ ∃ t, run step s actions = some t ∧ step t a = some u := by
  rw [run_append,Option.bind_eq_some_iff]
  simp [run]

theorem along_append {P : σ → α → Prop} (s : σ) (first second : List α) :
    Along step P s (first ++ second) ↔
      Along step P s first ∧ ∀ t, run step s first = some t → Along step P t second := by
  induction first generalizing s with
  | nil => simp [Along,run]
  | cons a rest ih =>
    simp only [List.cons_append,Along,run,and_assoc,Option.bind_eq_some_iff]
    refine and_congr_right fun _ => ?_
    constructor
    · intro later
      refine ⟨fun t moved => ((ih t).mp (later t moved)).1,?_⟩
      rintro u ⟨t,moved,reached⟩
      exact ((ih t).mp (later t moved)).2 u reached
    · rintro ⟨earlier,later⟩ t moved
      exact (ih t).mpr ⟨earlier t moved,fun u reached => later u ⟨t,moved,reached⟩⟩

theorem along_concat {P : σ → α → Prop} {s : σ} {actions : List α} {a : α} :
    Along step P s (actions ++ [a]) ↔ Along step P s actions ∧ ∀ t, run step s actions = some t → P t a := by
  simp [along_append,Along]

/-- What holds along a run holds of every state reached and the action taken there. -/
theorem along_iff {P : σ → α → Prop} {s : σ} {actions : List α} :
    Along step P s actions ↔
      ∀ earlier a later t, actions = earlier ++ a :: later → run step s earlier = some t → P t a := by
  constructor
  · rintro along earlier a later t rfl reached
    exact (((along_append s earlier (a :: later)).mp along).2 t reached).1
  · intro all
    induction actions generalizing s with
    | nil => trivial
    | cons a rest ih =>
      refine ⟨all [] a rest s rfl rfl,fun t moved => ih fun earlier b later u split reached => ?_⟩
      exact all (a :: earlier) b later u (by rw [split,List.cons_append]) (by rw [run,moved]; exact reached)

/-- What does not hold along a list of actions fails for a first time. -/
theorem along_or_first (P : σ → α → Prop) (s : σ) (actions : List α) : Along step P s actions ∨
    ∃ earlier a later t, actions = earlier ++ a :: later ∧ Along step P s earlier ∧ run step s earlier = some t ∧ ¬ P t a := by
  induction actions using List.reverseRecOn with
  | nil => exact .inl trivial
  | append_singleton actions a ih =>
    rcases ih with along | ⟨earlier,b,later,t,rfl,along,reached,fails⟩
    · by_cases last : ∀ t, run step s actions = some t → P t a
      · exact .inl (along_concat.mpr ⟨along,last⟩)
      · push Not at last
        obtain ⟨t,reached,fails⟩ := last
        exact .inr ⟨actions,a,[],t,rfl,along,reached,fails⟩
    · exact .inr ⟨earlier,b,later ++ [a],t,by simp,along,reached,fails⟩

theorem log_append {observe : σ → α → σ → List ω} {s t : σ} {first : List α} (second : List α)
    (reached : run step s first = some t) :
    log step observe s (first ++ second) = log step observe s first ++ log step observe t second := by
  induction first generalizing s with
  | nil => cases reached; rfl
  | cons a rest ih =>
    obtain ⟨next,moved,later⟩ := Option.bind_eq_some_iff.mp reached
    simp [log,moved,ih later]

theorem log_concat {observe : σ → α → σ → List ω} {s t u : σ} {actions : List α} {a : α}
    (reached : run step s actions = some t) (moved : step t a = some u) :
    log step observe s (actions ++ [a]) = log step observe s actions ++ observe t a u := by
  rw [log_append [a] reached]
  simp [log,moved]

/-- The entries of a log with one more entry. -/
theorem getElem?_concat {entries : List ω} {x y : ω} {i : ℕ} :
    (entries ++ [x])[i]? = some y ↔ entries[i]? = some y ∨ i = entries.length ∧ x = y := by
  rcases lt_trichotomy i entries.length with inside | rfl | outside
  · simp [List.getElem?_append_left inside,inside.ne]
  · simp
  · have absent : entries[i]? = none := List.getElem?_eq_none outside.le
    have beyond : (entries ++ [x])[i]? = none := List.getElem?_eq_none (by simpa using outside)
    simp [absent,beyond,outside.ne']

/-- Induction on a run by its last action, with what the run shows so far. -/
theorem run_induction {s₀ : σ} {P : List α → σ → Prop} (start : P [] s₀)
    (advance : ∀ actions s a t, run step s₀ actions = some s → P actions s → step s a = some t → P (actions ++ [a]) t) :
    ∀ actions s, run step s₀ actions = some s → P actions s := by
  intro actions
  induction actions using List.reverseRecOn with
  | nil => intro s reached; cases reached; exact start
  | append_singleton actions a ih =>
    intro u reached
    obtain ⟨t,before,moved⟩ := run_concat.mp reached
    exact advance actions t a u before (ih t before) moved

/-- A step property that an invariant implies holds along every run. -/
theorem along_of_invariant {s₀ : σ} {P Q : σ → α → Prop} {I : σ → Prop} (start : I s₀)
    (advance : ∀ s a t, I s → P s a → step s a = some t → I t) (implies : ∀ s a, I s → P s a → Q s a) :
    ∀ actions, Along step P s₀ actions → Along step Q s₀ actions := by
  intro actions
  induction actions generalizing s₀ with
  | nil => exact fun _ => trivial
  | cons a rest ih =>
    rintro ⟨here,later⟩
    exact ⟨implies _ _ start here,fun t moved => ih (advance _ _ _ start here moved) (later t moved)⟩

/-- Two step properties that agree while an invariant holds, and keep it, hold along the same runs. -/
theorem along_congr {s₀ : σ} {P Q R : σ → α → Prop} {I : σ → Prop} (start : I s₀)
    (agree : ∀ s a, I s → P s a → (Q s a ↔ R s a)) (advance : ∀ s a t, I s → P s a → Q s a → step s a = some t → I t) :
    ∀ actions, Along step P s₀ actions → (Along step Q s₀ actions ↔ Along step R s₀ actions) := by
  intro actions
  induction actions generalizing s₀ with
  | nil => exact fun _ => Iff.rfl
  | cons a rest ih =>
    rintro ⟨here,later⟩
    simp only [Along,← agree _ _ start here]
    refine and_congr_right fun holds => forall₂_congr fun t moved => ?_
    exact ih (advance _ _ _ start here holds moved) (later t moved)

/-- Every action of a completed run is possible where it is taken. -/
theorem along_of_run {s t : σ} {actions : List α} (reached : run step s actions = some t) :
    Along step (fun s a => (step s a).isSome) s actions := by
  induction actions generalizing s with
  | nil => trivial
  | cons a rest ih =>
    obtain ⟨next,moved,later⟩ := Option.bind_eq_some_iff.mp reached
    refine ⟨Option.isSome_of_eq_some moved,fun next' moved' => ?_⟩
    cases moved.symm.trans moved'
    exact ih later

theorem along_of_forall {P : α → Prop} {actions : List α} (all : ∀ a ∈ actions, P a) (s : σ) :
    Along step (fun _ a => P a) s actions := by
  induction actions generalizing s with
  | nil => trivial
  | cons a rest ih => exact ⟨all a (by simp),fun t _ => ih (fun b member => all b (List.mem_cons_of_mem _ member)) t⟩

theorem Along.imp {P Q : σ → α → Prop} {s : σ} {actions : List α} (along : Along step P s actions)
    (implies : ∀ s a, P s a → Q s a) : Along step Q s actions := by
  induction actions generalizing s with
  | nil => trivial
  | cons a rest ih => exact ⟨implies _ _ along.1,fun t moved => ih (along.2 t moved)⟩

theorem Along.and {P Q : σ → α → Prop} {s : σ} {actions : List α} (first : Along step P s actions)
    (second : Along step Q s actions) : Along step (fun s a => P s a ∧ Q s a) s actions := by
  induction actions generalizing s with
  | nil => trivial
  | cons a rest ih => exact ⟨⟨first.1,second.1⟩,fun t moved => ih (first.2 t moved) (second.2 t moved)⟩

end MockPlant.Runs
