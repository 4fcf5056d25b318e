import MockPlant.Contract
import MockPlant.Shipped

/-!
What the loader's checks decide. Comparing neighbours after a sort by start finds an
overlap exactly when two entries of a table share a register, whatever order they
were listed in; with the other checks a contract is accepted exactly when it is well
formed, and a refusal is always a `ContractError`.
-/
namespace MockPlant.Validation
open MockPlant.Python MockPlant.Contract

/-- No register of a table lies in two entries. -/
def Separate (entries : List Entry) : Prop :=
  entries.Pairwise (fun a b => a.table = b.table → ∀ x ∈ a.span, x ∉ b.span)

/-- What a contract has to be. -/
structure WellFormed (contract : Contract) : Prop where
  wordOrder : contract.metadata.wordOrder = .highFirst ∨ contract.metadata.wordOrder = .lowFirst
  byteOrder : contract.metadata.byteOrder = .big ∨ contract.metadata.byteOrder = .little
  names : (contract.signals.map (·.name)).Nodup
  separate : Separate contract.entries
  kinds : ∀ s ∈ contract.signals, s.opcua.type.isSome ↔ s.opcua.states = none

/-! ### The overlap check -/

/-- For spans that hold an address, having none in common is lying apart. -/
theorem apart_iff {a b : Span} (left : a.start < a.stop) (right : b.start < b.stop) :
    Apart a b ↔ ∀ x ∈ a, x ∉ b := by
  constructor
  · intro apart x inside
    exact apart.not_mem inside
  · intro disjoint
    by_contra overlap
    simp only [Apart,not_or,not_le] at overlap
    -- The later of the two starts lies in both.
    rcases le_total a.start b.start with before | before
    · exact disjoint b.start ⟨before,overlap.1⟩ ⟨le_rfl,right⟩
    · exact disjoint a.start ⟨le_rfl,left⟩ ⟨before,overlap.2⟩

theorem checkNeighbours_of_pairwise {entries : List Entry}
    (apart : entries.Pairwise (fun a b => a.span.stop ≤ b.span.start)) : checkNeighbours entries = .ok () := by
  induction entries with
  | nil => rfl
  | cons a tail ih =>
    cases tail with
    | nil => rfl
    | cons b rest =>
      obtain ⟨first,later⟩ := List.pairwise_cons.mp apart
      have near : ¬ a.span.stop > b.span.start := not_lt.mpr (first b (by simp))
      rw [checkNeighbours,if_neg near]
      exact ih later

/-- Among spans that hold an address, sorted by start, the neighbours decide. -/
theorem checkNeighbours_iff {entries : List Entry} (nonempty : ∀ e ∈ entries, e.span.start < e.span.stop)
    (sorted : entries.Pairwise (fun a b => a.span.start ≤ b.span.start)) :
    checkNeighbours entries = .ok () ↔ entries.Pairwise (fun a b => Apart a.span b.span) := by
  constructor
  · intro checked
    have before := pairwise_of_checkNeighbours (fun e member => (nonempty e member).le) checked
    exact before.imp fun stop => .inl stop
  · intro apart
    apply checkNeighbours_of_pairwise
    refine (apart.and sorted).imp_of_mem fun {a b} first second both => ?_
    rcases both.1 with before | after
    · exact before
    · -- The second span ends at the first one's start, so it starts before it.
      have low := nonempty b second
      have order := both.2
      omega

theorem sortedSpans_perm (entries : List Entry) (table : Table) :
    (sortedSpans entries table).Perm (entries.filter (fun e => e.table = table)) := List.perm_insertionSort _ _

theorem sortedSpans_sorted (entries : List Entry) (table : Table) :
    (sortedSpans entries table).Pairwise (fun a b => a.span.start ≤ b.span.start) := by
  have total : Std.Total (fun a b : Entry => a.span.start ≤ b.span.start) := ⟨fun a b => le_total _ _⟩
  have transitive : IsTrans Entry (fun a b => a.span.start ≤ b.span.start) := ⟨fun a b c => le_trans⟩
  exact List.pairwise_insertionSort (fun a b : Entry => a.span.start ≤ b.span.start) _

theorem entries_nonempty {contract : Contract} (commandLayout : contract.commandBlock.layout ≠ [])
    (ackLayout : contract.ackBlock.layout ≠ []) : ∀ e ∈ contract.entries, e.span.start < e.span.stop := by
  have command := List.length_pos_iff.mpr commandLayout
  have ack := List.length_pos_iff.mpr ackLayout
  intro e member
  simp only [Contract.entries,List.mem_append,List.mem_map,List.mem_cons,List.not_mem_nil,or_false] at member
  rcases member with ⟨s,_,rfl⟩ | rfl | rfl
  · have width : 0 < s.modbus.width := by
      unfold ModbusMapping.width
      cases s.modbus.type <;> decide
    simp only [ModbusMapping.span]
    omega
  · simp only [RegisterBlock.span]
    omega
  · simp only [RegisterBlock.span]
    omega

/-- The overlap check of all tables looks at every two entries. -/
theorem checkNoOverlaps_iff {contract : Contract} (nonempty : ∀ e ∈ contract.entries, e.span.start < e.span.stop) :
    checkNoOverlaps contract = .ok () ↔ Separate contract.entries := by
  constructor
  · intro checked
    refine List.Pairwise.imp ?_ (entries_apart checked)
    intro a b apart same x inside
    exact (apart same).not_mem inside
  · intro separate
    apply forM_eq_ok.mpr
    intro table _
    have perm := sortedSpans_perm contract.entries table
    have holds : ∀ e ∈ sortedSpans contract.entries table, e.span.start < e.span.stop := fun e member =>
      nonempty e (List.mem_filter.mp (perm.mem_iff.mp member)).1
    apply (checkNeighbours_iff holds (sortedSpans_sorted _ _)).mpr
    apply (perm.pairwise_iff fun apart => Apart.symm apart).mpr
    refine List.pairwise_filter.mpr (separate.imp_of_mem fun {a b} first second disjoint here there => ?_)
    simp only [decide_eq_true_eq] at here there
    exact (apart_iff (nonempty a first) (nonempty b second)).mpr (disjoint (here.trans there.symm))

/-! ### The other checks -/

theorem checkOrders_iff {metadata : Meta} : checkOrders metadata = .ok () ↔
    (metadata.wordOrder = .highFirst ∨ metadata.wordOrder = .lowFirst) ∧
      (metadata.byteOrder = .big ∨ metadata.byteOrder = .little) := by
  unfold checkOrders
  cases metadata.wordOrder <;> cases metadata.byteOrder <;> simp [bind,Except.bind,pure,Except.pure]

theorem checkDuplicateNames_iff {signals : List Signal} :
    checkDuplicateNames signals = .ok () ↔ (signals.map (·.name)).Nodup := by
  constructor
  · exact names_distinct
  · intro distinct
    have none : duplicateNames signals = [] := by
      apply List.eq_nil_iff_forall_not_mem.mpr
      intro name listed
      simp only [duplicateNames,List.mem_insertionSort,List.mem_filter,List.mem_eraseDups,decide_eq_true_eq] at listed
      have once := List.nodup_iff_count_le_one.mp distinct name
      omega
    rw [checkDuplicateNames,none]

theorem checkSignalKind_iff {signals : List Signal} :
    checkSignalKind signals = .ok () ↔ ∀ s ∈ signals, s.opcua.type.isSome ↔ s.opcua.states = none := by
  refine forM_eq_ok.trans (forall₂_congr fun s _ => ?_)
  cases s.opcua.type <;> cases s.opcua.states <;> simp

/-! ### Refusals -/

/-- A check that raises nothing but a `ContractError`. -/
def RaisesContractError (check : Except PyError Unit) : Prop :=
  ∀ e, check = .error e → ∃ message, e = contractError message

theorem RaisesContractError.bind {first second : Except PyError Unit} (one : RaisesContractError first)
    (two : RaisesContractError second) : RaisesContractError (first >>= fun _ => second) := by
  intro e raised
  cases first with
  | error =>
    cases raised
    exact one e rfl
  | ok => exact two e raised

theorem RaisesContractError.forM {α : Type} {items : List α} {check : α → Except PyError Unit}
    (each : ∀ item ∈ items, RaisesContractError (check item)) : RaisesContractError (forM items check) := by
  induction items with
  | nil =>
    intro e raised
    cases raised
  | cons item rest ih =>
    rw [List.forM_cons]
    exact (each item (by simp)).bind (ih fun other member => each other (List.mem_cons_of_mem _ member))

theorem checkNeighbours_raises (entries : List Entry) : RaisesContractError (checkNeighbours entries) := by
  induction entries with
  | nil =>
    intro e raised
    cases raised
  | cons a tail ih =>
    cases tail with
    | nil =>
      intro e raised
      cases raised
    | cons b rest =>
      intro e raised
      rw [checkNeighbours] at raised
      split_ifs at raised
      · cases raised
        exact ⟨_,rfl⟩
      · exact ih e raised

theorem validate_raises (contract : Contract) : RaisesContractError (validate contract) := by
  have orders : RaisesContractError (checkOrders contract.metadata) := by
    unfold checkOrders
    intro e raised
    cases word : contract.metadata.wordOrder <;> cases byte : contract.metadata.byteOrder <;>
      simp only [word,byte,Bind.bind,Except.bind,pure,Except.pure,Except.error.injEq,reduceCtorEq] at raised <;>
      exact ⟨_,raised.symm⟩
  have names : RaisesContractError (checkDuplicateNames contract.signals) := by
    unfold checkDuplicateNames
    intro e raised
    split at raised
    · cases raised
    · cases raised
      exact ⟨_,rfl⟩
  have kinds : RaisesContractError (checkSignalKind contract.signals) := by
    apply RaisesContractError.forM
    intro s _ e raised
    split_ifs at raised
    cases raised
    exact ⟨_,rfl⟩
  have overlaps : RaisesContractError (checkNoOverlaps contract) :=
    RaisesContractError.forM fun table _ => checkNeighbours_raises _
  exact orders.bind (names.bind (overlaps.bind kinds))

/-! ### Validation -/

theorem validate_iff {contract : Contract} (nonempty : ∀ e ∈ contract.entries, e.span.start < e.span.stop) :
    validate contract = .ok () ↔ WellFormed contract := by
  constructor
  · intro valid
    obtain ⟨orders,names,overlaps,kinds⟩ := validate_ok valid
    obtain ⟨word,byte⟩ := checkOrders_iff.mp orders
    exact ⟨word,byte,checkDuplicateNames_iff.mp names,(checkNoOverlaps_iff nonempty).mp overlaps,
      checkSignalKind_iff.mp kinds⟩
  · intro formed
    simp only [validate,bind_eq_ok]
    exact ⟨(),checkOrders_iff.mpr ⟨formed.wordOrder,formed.byteOrder⟩,(),checkDuplicateNames_iff.mpr formed.names,(),
      (checkNoOverlaps_iff nonempty).mpr formed.separate,checkSignalKind_iff.mpr formed.kinds⟩

/-- Validation accepts exactly the well-formed contracts and refuses the others with a
    `ContractError`; its overlap check agrees with comparing every two entries. -/
theorem validate_exact {contract : Contract} (commandLayout : contract.commandBlock.layout ≠ [])
    (ackLayout : contract.ackBlock.layout ≠ []) :
    (validate contract = .ok () ↔ WellFormed contract) ∧
      (¬ WellFormed contract → ∃ message, validate contract = .error (contractError message)) ∧
      (checkNoOverlaps contract = .ok () ↔ Separate contract.entries) := by
  have nonempty := entries_nonempty commandLayout ackLayout
  refine ⟨validate_iff nonempty,fun malformed => ?_,checkNoOverlaps_iff nonempty⟩
  cases outcome : validate contract with
  | ok => exact absurd ((validate_iff nonempty).mp outcome) malformed
  | error e =>
    obtain ⟨message,rfl⟩ := validate_raises contract e outcome
    exact ⟨message,rfl⟩

theorem validate_exact_tags :
    (validate Shipped.tags = .ok () ↔ WellFormed Shipped.tags) ∧
      (¬ WellFormed Shipped.tags → ∃ message, validate Shipped.tags = .error (contractError message)) ∧
      (checkNoOverlaps Shipped.tags = .ok () ↔ Separate Shipped.tags.entries) :=
  validate_exact (by decide) (by decide)

end MockPlant.Validation
