import Mathlib

/-!
Nodes that hang off one another under names, and the paths of names that lead to them.
Names can be shared, so a path leads to a list of nodes. Ids cannot, and a node that a
path leads to has the last name of the path and a parent that the rest of it leads to.
-/
namespace MockPlant.Browse

structure Node (ν κ : Type*) where
  id : ν
  parent : ν
  name : κ
deriving DecidableEq

variable {ν κ : Type*}

/-- A path leads from one node to another, one name at a time. -/
def Leads (space : List (Node ν κ)) : List κ → ν → ν → Prop
  | [], start, x => x = start
  | name :: rest, start, x => ∃ n ∈ space, n.parent = start ∧ n.name = name ∧ Leads space rest n.id x

variable [DecidableEq ν] [DecidableEq κ] {space : List (Node ν κ)}

/-- The children of a node under a name, in the order in which they were added. -/
def children (space : List (Node ν κ)) (name : κ) (parent : ν) : List ν :=
  (space.filter (fun n => n.parent = parent ∧ n.name = name)).map Node.id

/-- All that a path leads to, one name at a time. -/
def targets (space : List (Node ν κ)) (path : List κ) (start : ν) : List ν :=
  path.foldl (fun starts name => starts.flatMap (children space name)) [start]

/-- The first target of a path. -/
def find (space : List (Node ν κ)) (path : List κ) (start : ν) : Option ν := (targets space path start).head?

theorem mem_children {name : κ} {parent x : ν} :
    x ∈ children space name parent ↔ ∃ n ∈ space, n.parent = parent ∧ n.name = name ∧ n.id = x := by
  simp [children,and_assoc]

theorem targets_nil (start : ν) : targets space [] start = [start] := rfl

theorem targets_concat (path : List κ) (name : κ) (start : ν) :
    targets space (path ++ [name]) start = (targets space path start).flatMap (children space name) := by
  simp [targets,List.foldl_append]

theorem targets_singleton (name : κ) (start : ν) : targets space [name] start = children space name start := by
  simp [targets]

theorem mem_targets {path : List κ} {start x : ν} : x ∈ targets space path start ↔ Leads space path start x := by
  have from_ (starts : List ν) :
      x ∈ path.foldl (fun starts name => starts.flatMap (children space name)) starts ↔ ∃ s ∈ starts, Leads space path s x := by
    induction path generalizing starts with
    | nil => simp [Leads]
    | cons name rest ih =>
      rw [List.foldl_cons,ih]
      constructor
      · rintro ⟨y,inside,leads⟩
        obtain ⟨s,member,child⟩ := List.mem_flatMap.mp inside
        obtain ⟨n,known,parent,named,rfl⟩ := mem_children.mp child
        exact ⟨s,member,n,known,parent,named,leads⟩
      · rintro ⟨s,member,n,known,parent,named,leads⟩
        exact ⟨n.id,List.mem_flatMap.mpr ⟨s,member,mem_children.mpr ⟨n,known,parent,named,rfl⟩⟩,leads⟩
  simpa [targets] using from_ [start]

/-- A path with one target leads there and nowhere else. -/
theorem leads_only {path : List κ} {start x : ν} (only : targets space path start = [x]) :
    Leads space path start x ∧ ∀ y, Leads space path start y → y = x := by
  simp only [← mem_targets,only,List.mem_singleton,true_and]
  exact fun _ same => same

theorem find_leads {path : List κ} {start x : ν} (found : find space path start = some x) : Leads space path start x :=
  mem_targets.mp (List.mem_of_mem_head? found)

/-- Where a path leads somewhere, and nowhere else, that is what is found. -/
theorem find_only {path : List κ} {start x : ν} (leads : Leads space path start x)
    (only : ∀ y, Leads space path start y → y = x) : find space path start = some x := by
  have somewhere : (find space path start).isSome := by
    rw [find,List.isSome_head?]
    exact List.ne_nil_of_mem (mem_targets.mpr leads)
  obtain ⟨y,found⟩ := Option.isSome_iff_exists.mp somewhere
  rw [found,only y (find_leads found)]

/-- A node that a path leads to has the path's last name and hangs off what the rest leads to. -/
theorem mem_targets_concat {path : List κ} {name : κ} {start x : ν} (target : x ∈ targets space (path ++ [name]) start) :
    ∃ n ∈ space, n.id = x ∧ n.name = name ∧ n.parent ∈ targets space path start := by
  rw [targets_concat,List.mem_flatMap] at target
  obtain ⟨parent,inside,child⟩ := target
  obtain ⟨n,member,rfl,named,same⟩ := mem_children.mp child
  exact ⟨n,member,same,named,inside⟩

/-- The only node of its name under its parent. -/
def Alone (space : List (Node ν κ)) (n : Node ν κ) : Prop :=
  n ∈ space ∧ ∀ m ∈ space, m.parent = n.parent → m.name = n.name → m = n

section
variable (distinct : (space.map Node.id).Nodup)
include distinct

omit [DecidableEq ν] [DecidableEq κ] in
/-- A node is known by its id. -/
theorem node_unique {n m : Node ν κ} (first : n ∈ space) (second : m ∈ space) (same : n.id = m.id) : n = m :=
  List.inj_on_of_nodup_map distinct first second same

theorem Alone.children {n : Node ν κ} (alone : Alone space n) : children space n.name n.parent = [n.id] := by
  have nodup : (Browse.children space n.name n.parent).Nodup := distinct.sublist (List.filter_sublist.map _)
  refine List.perm_singleton.mp ((List.perm_ext_iff_of_nodup nodup (List.nodup_singleton _)).mpr fun x => ?_)
  rw [mem_children,List.mem_singleton]
  constructor
  · rintro ⟨m,member,parent,name,rfl⟩
    rw [alone.2 m member parent name]
  · rintro rfl
    exact ⟨n,alone.1,rfl,rfl,rfl⟩

/-- A path that leads to one node leads, by the name of a child that is alone, to that child. -/
theorem Alone.targets {n : Node ν κ} (alone : Alone space n) {path : List κ} {start : ν}
    (parent : targets space path start = [n.parent]) : targets space (path ++ [n.name]) start = [n.id] := by
  rw [targets_concat,parent,List.flatMap_singleton,alone.children distinct]

end
end MockPlant.Browse
