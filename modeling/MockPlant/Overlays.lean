import Mathlib

/-!
Partial maps laid over one another. An overlay answers for the keys it names and
leaves the others to the map below it: overlays without a key in common can be laid
in either order, and an overlay of known keys makes no new ones.
-/
namespace MockPlant.Overlays

variable {α β : Type*}

/-- `f` with the entries of `g` laid over it. -/
def overlay (f g : α → Option β) : α → Option β := fun x => (g x).or (f x)

variable {f g h : α → Option β} {x : α} {y : β}

theorem overlay_none (absent : g x = none) : overlay f g x = f x := by
  rw [overlay,absent,Option.none_or]

theorem overlay_some (named : g x = some y) : overlay f g x = some y := by
  rw [overlay,named,Option.some_or]

theorem overlay_assoc (f g h : α → Option β) : overlay (overlay f g) h = overlay f (overlay g h) := by
  funext x
  simp only [overlay,Option.or_assoc]

/-- Overlays that name no key in common commute. -/
theorem overlay_comm (apart : ∀ x, g x = none ∨ h x = none) : overlay (overlay f g) h = overlay (overlay f h) g := by
  funext x
  rcases apart x with absent | absent
  · rw [overlay_none (f := overlay f h) absent]
    cases named : h x with
    | none => rw [overlay_none named,overlay_none absent,overlay_none named]
    | some y => rw [overlay_some named,overlay_some named]
  · rw [overlay_none absent]
    cases named : g x with
    | none => rw [overlay_none named,overlay_none named,overlay_none absent]
    | some y => rw [overlay_some named,overlay_some named]

theorem overlay_isSome (known : ∀ x, (g x).isSome → (f x).isSome) (x : α) : (overlay f g x).isSome = (f x).isSome := by
  cases named : g x with
  | none => rw [overlay_none named]
  | some y =>
    have below := known x (by rw [named]; rfl)
    rw [overlay_some named,below]
    rfl

/-- An entry of the two is one of theirs. -/
theorem overlay_or (found : overlay f g x = some y) : g x = some y ∨ f x = some y := by
  cases named : g x with
  | none =>
    rw [overlay_none named] at found
    exact .inr found
  | some z =>
    rw [overlay_some named] at found
    exact .inl found

/-! ### Assignments -/

variable [DecidableEq α]

/-- What a list of assignments leaves assigned, where a later one wins. -/
def assigned : List (α × β) → α → Option β
  | [] => fun _ => none
  | (k,v) :: rest => overlay (fun x => if x = k then some v else none) (assigned rest)

theorem assigned_append (first second : List (α × β)) :
    assigned (first ++ second) = overlay (assigned first) (assigned second) := by
  induction first with
  | nil =>
    funext x
    simp [assigned,overlay]
  | cons entry rest ih => rw [List.cons_append,assigned,ih,assigned,overlay_assoc]

theorem assigned_mem {entries : List (α × β)} (found : assigned entries x = some y) : (x,y) ∈ entries := by
  induction entries with
  | nil => cases found
  | cons entry rest ih =>
    obtain ⟨k,v⟩ := entry
    rcases overlay_or found with later | first
    · exact List.mem_cons_of_mem _ (ih later)
    · split_ifs at first with same
      cases first
      rw [same]
      exact List.mem_cons_self

theorem assigned_none {entries : List (α × β)} (absent : ∀ y, (x,y) ∉ entries) : assigned entries x = none := by
  cases found : assigned entries x with
  | none => rfl
  | some y => exact absurd (assigned_mem found) (absent y)

/-- An assignment to a key that no other one names stands. -/
theorem assigned_of_mem {entries : List (α × β)} (distinct : (entries.map (·.1)).Nodup) (listed : (x,y) ∈ entries) :
    assigned entries x = some y := by
  induction entries with
  | nil => cases listed
  | cons entry rest ih =>
    obtain ⟨k,v⟩ := entry
    rw [List.map_cons,List.nodup_cons] at distinct
    rcases List.mem_cons.mp listed with same | later
    · cases same
      have single : assigned rest x = none :=
        assigned_none fun z member => distinct.1 (List.mem_map.mpr ⟨(x,z),member,rfl⟩)
      rw [assigned,overlay_none single,if_pos rfl]
    · exact overlay_some (ih distinct.2 later)

end MockPlant.Overlays
