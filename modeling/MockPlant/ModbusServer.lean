import MockPlant.Contract

/-!
The image tables of the PLC and the Modbus datastore over them. A request names a
function code, which selects a table, and consecutive addresses; it is served as a
whole or refused with an exception code.
-/
namespace MockPlant.ModbusServer
open MockPlant.Python MockPlant.Contract

/-- One image table: the word at every mapped address. -/
abbrev Registers := ℤ → Option ℕ

/-- `memory`: the image tables by name. -/
abbrev Memory := Table → Option Registers

def Registers.set (r : Registers) (a : ℤ) (w : ℕ) : Registers := fun x => if x = a then some w else r x

/-- The words at consecutive addresses from `a`. -/
def Registers.store : Registers → ℤ → List ℕ → Registers
  | r, _, [] => r
  | r, a, w :: rest => store (r.set a w) (a + 1) rest

namespace Memory

def get (m : Memory) (t : Table) (a : ℤ) : Option ℕ := (m t).bind (fun r => r a)

/-- `memory[t][a] = w`. -/
def put (m : Memory) (t : Table) (a : ℤ) (w : ℕ) : Except PyError Memory :=
  match m t with
  | none => .error .keyError
  | some r => .ok (Function.update m t (some (Registers.set r a w)))

/-- Assignments in order; as in `dict.update`, a later one wins. -/
def update : Memory → List (Table × ℤ × ℕ) → Except PyError Memory
  | m, [] => .ok m
  | m, (t,a,w) :: rest => do
    let m ← m.put t a w
    m.update rest

/-- `setdefault` of 0 at every address of a span. -/
def mapSpan (m : Memory) (t : Table) (span : Span) : Memory :=
  Function.update m t (some (fun a => (m.get t a).or (if a ∈ span then some 0 else none)))

end Memory

inductive ExcCode
  | illegalFunction
  | illegalAddress
deriving DecidableEq, Repr

/-- `_FUNC_TABLE`. -/
def funcTable : ℕ → Option Table
  | 1 | 5 | 15 => some .coil
  | 2 => some .discrete
  | 3 | 6 | 16 | 22 | 23 => some .holding
  | 4 => some .input
  | _ => none

/-- The name and the registers of the table that a function code selects. -/
def selectTable (m : Memory) (funcCode : ℕ) : Except ExcCode (Table × Registers) :=
  match funcTable funcCode with
  | none => .error .illegalFunction
  | some t =>
    match m t with
    | none => .error .illegalAddress
    | some r => .ok (t,r)

def getValues (m : Memory) (funcCode : ℕ) (address : ℤ) (count : ℕ) : Except ExcCode (List ℕ) := do
  let (_,table) ← selectTable m funcCode
  let wanted := (Span.mk address (address + count)).toList
  if wanted.any (fun a => (table a).isNone) then .error .illegalAddress
  else .ok (wanted.filterMap table)

def setValues (m : Memory) (funcCode : ℕ) (address : ℤ) (values : List ℕ) : Except ExcCode Memory := do
  let (name,table) ← selectTable m funcCode
  if (List.range values.length).any (fun (offset : ℕ) => (table (address + offset)).isNone) then .error .illegalAddress
  else .ok (Function.update m name (some (Registers.store table address values)))

/-! ### What the operations leave alone -/

theorem Registers.store_outside {r : Registers} {a x : ℤ} {words : List ℕ}
    (outside : x < a ∨ a + words.length ≤ x) : r.store a words x = r x := by
  induction words generalizing r a with
  | nil => rfl
  | cons w rest ih =>
    simp only [List.length_cons,Nat.cast_add,Nat.cast_one] at outside
    rw [store,ih (by omega)]
    have other : x ≠ a := by rintro rfl; omega
    simp [set,other]

theorem Registers.store_inside {r : Registers} {a : ℤ} {words : List ℕ} {k : ℕ} {w : ℕ}
    (here : words[k]? = some w) : r.store a words (a + k) = some w := by
  induction words generalizing r a k with
  | nil => simp at here
  | cons v rest ih =>
    cases k with
    | zero =>
      simp only [List.getElem?_cons_zero,Option.some.injEq] at here
      subst here
      rw [store,Registers.store_outside (by simp)]
      simp [set]
    | succ k =>
      have next := ih (r := r.set a v) (a := a + 1) (by simpa using here)
      rw [store]
      rw [show a + ((k + 1 : ℕ) : ℤ) = a + 1 + k by push_cast; ring]
      exact next

theorem Registers.store_isSome {r : Registers} {a x : ℤ} {words : List ℕ} (mapped : (r x).isSome) :
    (r.store a words x).isSome := by
  by_cases outside : x < a ∨ a + words.length ≤ x
  · rwa [Registers.store_outside outside]
  · obtain ⟨k,rfl⟩ : ∃ k : ℕ, x = a + k := ⟨(x - a).toNat,by omega⟩
    have inside : k < words.length := by omega
    rw [Registers.store_inside (List.getElem?_eq_getElem inside)]
    rfl

namespace Memory

theorem put_ok {m m' : Memory} {t : Table} {a : ℤ} {w : ℕ} (done : m.put t a w = .ok m') (t' : Table) (a' : ℤ) :
    m'.get t' a' = if t' = t ∧ a' = a then some w else m.get t' a' := by
  unfold put at done
  cases found : m t with
  | none => simp [found] at done
  | some r =>
    simp only [found,Except.ok.injEq] at done
    subst done
    by_cases same : t' = t
    · subst same
      simp [get,Registers.set,found]
    · simp [get,same]

theorem update_append {m : Memory} {first second : List (Table × ℤ × ℕ)} :
    m.update (first ++ second) = m.update first >>= fun m => m.update second := by
  induction first generalizing m with
  | nil => rfl
  | cons entry rest ih =>
    obtain ⟨t,a,w⟩ := entry
    simp only [List.cons_append,update]
    cases m.put t a w with
    | error e => rfl
    | ok next => exact ih

/-- An address that no assignment names keeps its word. -/
theorem update_get {m m' : Memory} {updates : List (Table × ℤ × ℕ)} (done : m.update updates = .ok m')
    {t : Table} {a : ℤ} (absent : ∀ w, (t,a,w) ∉ updates) : m'.get t a = m.get t a := by
  induction updates generalizing m with
  | nil => cases done; rfl
  | cons entry rest ih =>
    obtain ⟨t',a',w'⟩ := entry
    obtain ⟨next,put,later⟩ := bind_eq_ok.mp done
    have kept := ih later (fun w member => absent w (List.mem_cons_of_mem _ member))
    have other : ¬ (t = t' ∧ a = a') := by
      rintro ⟨rfl,rfl⟩
      exact absent w' (by simp)
    rw [kept,put_ok put,if_neg other]

/-- Assignments never unmap an address. -/
theorem update_isSome {m m' : Memory} {updates : List (Table × ℤ × ℕ)} (done : m.update updates = .ok m')
    {t : Table} {a : ℤ} (mapped : (m.get t a).isSome) : (m'.get t a).isSome := by
  induction updates generalizing m with
  | nil => cases done; exact mapped
  | cons entry rest ih =>
    obtain ⟨t',a',w'⟩ := entry
    obtain ⟨next,put,later⟩ := bind_eq_ok.mp done
    refine ih later ?_
    rw [put_ok put]
    split_ifs
    · rfl
    · exact mapped

/-- Assignments to tables that exist go through. -/
theorem update_exists {m : Memory} {updates : List (Table × ℤ × ℕ)} (tables : ∀ u ∈ updates, (m u.1).isSome) :
    ∃ m', m.update updates = .ok m' := by
  induction updates generalizing m with
  | nil => exact ⟨m,rfl⟩
  | cons entry rest ih =>
    obtain ⟨t,a,w⟩ := entry
    obtain ⟨r,found⟩ := Option.isSome_iff_exists.mp (tables (t,a,w) (by simp))
    have put : m.put t a w = .ok (Function.update m t (some (Registers.set r a w))) := by simp [put,found]
    have kept : ∀ u ∈ rest, (Function.update m t (some (Registers.set r a w)) u.1).isSome := by
      intro u member
      by_cases same : u.1 = t
      · simp [same]
      · simpa [same] using tables u (List.mem_cons_of_mem _ member)
    obtain ⟨m',done⟩ := ih kept
    exact ⟨m',bind_eq_ok.mpr ⟨_,put,done⟩⟩

theorem mapSpan_get (m : Memory) (t : Table) (span : Span) (t' : Table) (a : ℤ) :
    (m.mapSpan t span).get t' a =
      if t' = t then (m.get t a).or (if a ∈ span then some 0 else none) else m.get t' a := by
  by_cases same : t' = t
  · subst same
    simp [mapSpan,get]
  · simp [mapSpan,get,same]

end Memory

/-- A read of mapped addresses returns their words. -/
theorem getValues_mapped {m : Memory} {funcCode : ℕ} {t : Table} {address : ℤ} {count : ℕ}
    (code : funcTable funcCode = some t) {table : Registers} (found : m t = some table)
    (mapped : ∀ i < count, (table (address + (i : ℕ))).isSome) :
    ∃ words, getValues m funcCode address count = .ok words ∧ ∀ i < count, words[i]? = table (address + (i : ℕ)) := by
  have wanted : (Span.mk address (address + count)).toList = (List.range count).map (fun (k : ℕ) => address + k) := by
    simp [Span.toList]
  have all : ((List.range count).map (fun (k : ℕ) => address + k)).filterMap table =
      (List.range count).map (fun (k : ℕ) => (table (address + k)).getD 0) := by
    rw [List.filterMap_map,← List.filterMap_eq_map]
    refine List.filterMap_congr fun k member => ?_
    obtain ⟨w,here⟩ := Option.isSome_iff_exists.mp (mapped k (List.mem_range.mp member))
    simp [here]
  have none : ((List.range count).map (fun (k : ℕ) => address + k)).any (fun a => (table a).isNone) = false := by
    rw [List.any_eq_false]
    intro a member
    obtain ⟨k,inside,rfl⟩ := List.mem_map.mp member
    simpa using Option.isSome_iff_ne_none.mp (mapped k (List.mem_range.mp inside))
  refine ⟨(List.range count).map (fun (k : ℕ) => (table (address + k)).getD 0),?_,fun i inside => ?_⟩
  · simp [getValues,selectTable,code,found,wanted,none,all,bind,Except.bind]
  · obtain ⟨w,here⟩ := Option.isSome_iff_exists.mp (mapped i inside)
    simp [inside,here]

/-- A write to mapped addresses is carried out. -/
theorem setValues_mapped {m : Memory} {funcCode : ℕ} {t : Table} {address : ℤ} {values : List ℕ}
    (code : funcTable funcCode = some t) {table : Registers} (found : m t = some table)
    (mapped : ∀ i < values.length, (table (address + (i : ℕ))).isSome) :
    setValues m funcCode address values = .ok (Function.update m t (some (Registers.store table address values))) := by
  have none : (List.range values.length).any (fun (offset : ℕ) => (table (address + offset)).isNone) = false := by
    rw [List.any_eq_false]
    intro k inside
    simpa using Option.isSome_iff_ne_none.mp (mapped k (List.mem_range.mp inside))
  simp [setValues,selectTable,code,found,none,bind,Except.bind]

/-- A write that is carried out stores its words and changes nothing else. -/
theorem setValues_ok {m m' : Memory} {funcCode : ℕ} {address : ℤ} {values : List ℕ}
    (done : setValues m funcCode address values = .ok m') :
    ∃ name table, funcTable funcCode = some name ∧ m name = some table ∧
      m' = Function.update m name (some (Registers.store table address values)) := by
  unfold setValues selectTable at done
  cases code : funcTable funcCode with
  | none => simp [code,bind,Except.bind] at done
  | some name =>
    cases found : m name with
    | none => simp [code,found,bind,Except.bind] at done
    | some table =>
      simp only [code,found,bind,Except.bind] at done
      split_ifs at done
      cases done
      exact ⟨name,table,rfl,found,rfl⟩

/-- A carried-out write leaves every address outside its own. -/
theorem setValues_get {m m' : Memory} {funcCode : ℕ} {address : ℤ} {values : List ℕ}
    (done : setValues m funcCode address values = .ok m') {t : Table} {a : ℤ}
    (away : funcTable funcCode = some t → a < address ∨ address + values.length ≤ a) : m'.get t a = m.get t a := by
  obtain ⟨name,table,code,found,rfl⟩ := setValues_ok done
  by_cases same : t = name
  · subst same
    simp [Memory.get,found,Registers.store_outside (away code)]
  · simp [Memory.get,same]

theorem setValues_isSome {m m' : Memory} {funcCode : ℕ} {address : ℤ} {values : List ℕ}
    (done : setValues m funcCode address values = .ok m') {t : Table} {a : ℤ} (mapped : (m.get t a).isSome) :
    (m'.get t a).isSome := by
  obtain ⟨name,table,code,found,rfl⟩ := setValues_ok done
  by_cases same : t = name
  · subst same
    simp only [Memory.get,found,Option.bind_some,Function.update_self] at mapped ⊢
    exact Registers.store_isSome mapped
  · simpa [Memory.get,same] using mapped

end MockPlant.ModbusServer
