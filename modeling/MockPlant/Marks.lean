import Mathlib

/-!
A set of one-shot marks. Elements are marked in groups, and the use of an element
takes its mark off; an element is marked exactly when it has not been used since a
group last named it.
-/
namespace MockPlant.Marks

inductive Mark (α : Type*)
  | put (xs : List α)
  | take (x : α)

variable {α : Type*}

/-- A group has named the element, and it has not been used since. -/
def Standing (x : α) (events : List (Mark α)) : Prop :=
  ∃ earlier xs later, events = earlier ++ .put xs :: later ∧ x ∈ xs ∧ .take x ∉ later

theorem standing_nil (x : α) : ¬ Standing x [] := by
  rintro ⟨earlier,xs,later,split,_⟩
  simp at split

theorem standing_concat {x : α} {events : List (Mark α)} {event : Mark α} :
    Standing x (events ++ [event]) ↔ (∃ xs, event = .put xs ∧ x ∈ xs) ∨ Standing x events ∧ event ≠ .take x := by
  constructor
  · rintro ⟨earlier,xs,later,split,named,unused⟩
    rcases List.eq_nil_or_concat later with rfl | ⟨later,last,rfl⟩
    · have ends := List.append_inj_right' split rfl
      exact .inl ⟨xs,(List.cons.inj ends).1,named⟩
    · rw [List.concat_eq_append,← List.cons_append,← List.append_assoc] at split
      obtain ⟨rfl,same⟩ := List.append_inj' split rfl
      obtain rfl := (List.cons.inj same).1
      rw [List.concat_eq_append,List.mem_append,not_or,List.mem_singleton] at unused
      exact .inr ⟨⟨earlier,xs,later,rfl,named,unused.1⟩,Ne.symm unused.2⟩
  · rintro (⟨xs,rfl,named⟩ | ⟨⟨earlier,xs,later,rfl,named,unused⟩,other⟩)
    · exact ⟨events,xs,[],rfl,named,by simp⟩
    · refine ⟨earlier,xs,later ++ [event],by simp,named,?_⟩
      rw [List.mem_append,not_or,List.mem_singleton]
      exact ⟨unused,Ne.symm other⟩

variable [DecidableEq α]

def apply (marked : Finset α) : Mark α → Finset α
  | .put xs => marked ∪ xs.toFinset
  | .take x => marked.erase x

/-- The marked elements after a list of events. -/
def marked (events : List (Mark α)) : Finset α := events.foldl apply ∅

theorem marked_append (earlier later : List (Mark α)) : marked (earlier ++ later) = later.foldl apply (marked earlier) :=
  List.foldl_append

theorem mem_marked_iff {x : α} {events : List (Mark α)} : x ∈ marked events ↔ Standing x events := by
  induction events using List.reverseRecOn with
  | nil => exact iff_of_false (Finset.notMem_empty x) (standing_nil x)
  | append_singleton events event ih =>
    rw [marked_append,standing_concat,← ih]
    cases event with
    | put xs => simp [apply,or_comm]
    | take y => simp [apply,and_comm,eq_comm]

instance (x : α) (events : List (Mark α)) : Decidable (Standing x events) := decidable_of_iff _ mem_marked_iff

end MockPlant.Marks
