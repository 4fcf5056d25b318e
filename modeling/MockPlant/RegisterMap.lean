import MockPlant.Overlays
import MockPlant.ScanCommands

/-!
The register map. Memory is a set of tables with a word at every mapped address; a
Modbus write and a scan's commit both lay words over it at addresses that are mapped
already. So the addresses stay those that the contract puts in each table, and a
request is served exactly when all of its own are among them.
-/
namespace MockPlant.RegisterMap
open MockPlant.Python MockPlant.Contract MockPlant.Codec MockPlant.Machine MockPlant.ModbusServer MockPlant.Plc
open MockPlant.Overlays MockPlant.Runs MockPlant.ScanCommands

/-! ### Cells -/

/-- The words of a memory by table and address. -/
def cells (m : Memory) : Table × ℤ → Option ℕ := fun p => m.get p.1 p.2

/-- The words that assignments leave at the addresses they name. -/
def patch (updates : List (Table × ℤ × ℕ)) : Table × ℤ → Option ℕ :=
  assigned (updates.map (fun u => ((u.1,u.2.1),u.2.2)))

/-- The words of a write request at the addresses it names. -/
def written (funcCode : ℕ) (address : ℤ) (values : List ℕ) : Table × ℤ → Option ℕ :=
  fun p => if funcTable funcCode = some p.1 ∧ address ≤ p.2 then values[(p.2 - address).toNat]? else none

/-- A memory is its tables and their words. -/
theorem memory_ext {m m' : Memory} (tables : ∀ t, (m t).isSome = (m' t).isSome) (words : cells m = cells m') :
    m = m' := by
  funext t
  have same := tables t
  cases one : m t with
  | none =>
    cases two : m' t with
    | none => rfl
    | some r' => simp [one,two] at same
  | some r =>
    cases two : m' t with
    | none => simp [one,two] at same
    | some r' =>
      have equal : r = r' := by
        funext a
        have here := congrFun words (t,a)
        simpa [cells,Memory.get,one,two] using here
      rw [equal]

theorem patch_mem {updates : List (Table × ℤ × ℕ)} {t : Table} {a : ℤ} {w : ℕ} (found : patch updates (t,a) = some w) :
    (t,a,w) ∈ updates := by
  obtain ⟨u,listed,same⟩ := List.mem_map.mp (assigned_mem found)
  obtain ⟨t',a',w'⟩ := u
  cases same
  exact listed

theorem patch_none {updates : List (Table × ℤ × ℕ)} {t : Table} {a : ℤ} (absent : ∀ w, (t,a,w) ∉ updates) :
    patch updates (t,a) = none := by
  cases found : patch updates (t,a) with
  | none => rfl
  | some w => exact absurd (patch_mem found) (absent w)

theorem patch_append (first second : List (Table × ℤ × ℕ)) :
    patch (first ++ second) = overlay (patch first) (patch second) := by
  rw [patch,List.map_append,assigned_append]
  rfl

theorem written_some {funcCode : ℕ} {address : ℤ} {values : List ℕ} {t : Table} {a : ℤ} {w : ℕ}
    (found : written funcCode address values (t,a) = some w) :
    funcTable funcCode = some t ∧ a ∈ Span.mk address (address + values.length) ∧ w ∈ values := by
  simp only [written] at found
  split_ifs at found with named
  obtain ⟨bound,here⟩ := List.getElem?_eq_some_iff.mp found
  refine ⟨named.1,Span.mem_def.mpr ⟨named.2,?_⟩,here ▸ List.getElem_mem bound⟩
  have := named.2
  simp only
  omega

theorem written_none {funcCode : ℕ} {address : ℤ} {values : List ℕ} {t : Table} {a : ℤ}
    (away : funcTable funcCode = some t → a ∉ Span.mk address (address + values.length)) :
    written funcCode address values (t,a) = none := by
  cases found : written funcCode address values (t,a) with
  | none => rfl
  | some w =>
    obtain ⟨table,inside,_⟩ := written_some found
    exact absurd inside (away table)

theorem written_isSome {funcCode : ℕ} {address : ℤ} {values : List ℕ} {t : Table} {a : ℤ} :
    (written funcCode address values (t,a)).isSome ↔
      funcTable funcCode = some t ∧ a ∈ Span.mk address (address + values.length) := by
  constructor
  · intro named
    obtain ⟨w,found⟩ := Option.isSome_iff_exists.mp named
    obtain ⟨table,inside,_⟩ := written_some found
    exact ⟨table,inside⟩
  · rintro ⟨table,low,high⟩
    simp only at low high
    have bound : (a - address).toNat < values.length := by omega
    simp [written,table,low,bound]

/-! ### The operations on cells -/

theorem put_tables {m m' : Memory} {t : Table} {a : ℤ} {w : ℕ} (done : m.put t a w = .ok m') (t' : Table) :
    (m' t').isSome = (m t').isSome := by
  unfold Memory.put at done
  cases found : m t with
  | none => simp [found] at done
  | some r =>
    simp only [found,Except.ok.injEq] at done
    subst done
    by_cases same : t' = t
    · subst same
      simp [found]
    · simp [same]

/-- Assignments need the tables they name and make none. -/
theorem update_tables {m m' : Memory} {updates : List (Table × ℤ × ℕ)} (done : m.update updates = .ok m') :
    (∀ t, (m' t).isSome = (m t).isSome) ∧ ∀ u ∈ updates, (m u.1).isSome := by
  induction updates generalizing m with
  | nil =>
    cases done
    exact ⟨fun _ => rfl,by simp⟩
  | cons entry rest ih =>
    obtain ⟨t,a,w⟩ := entry
    obtain ⟨next,put,later⟩ := bind_eq_ok.mp done
    obtain ⟨kept,named⟩ := ih later
    have first := put_tables put
    refine ⟨fun t' => (kept t').trans (first t'),?_⟩
    intro u member
    rcases List.mem_cons.mp member with rfl | inRest
    · unfold Memory.put at put
      cases found : m t with
      | none => simp [found] at put
      | some r => rfl
    · rw [← first]
      exact named u inRest

theorem cells_update {m m' : Memory} {updates : List (Table × ℤ × ℕ)} (done : m.update updates = .ok m') :
    cells m' = overlay (cells m) (patch updates) := by
  induction updates generalizing m with
  | nil =>
    cases done
    rfl
  | cons entry rest ih =>
    obtain ⟨t,a,w⟩ := entry
    obtain ⟨next,put,later⟩ := bind_eq_ok.mp done
    have first : cells next = overlay (cells m) (fun p => if p = (t,a) then some w else none) := by
      funext ⟨t',a'⟩
      by_cases same : t' = t ∧ a' = a
      · simp [cells,overlay,Memory.put_ok put,same]
      · have other : ¬ (t',a') = (t,a) := by simpa using same
        simp [cells,overlay,Memory.put_ok put,same,other]
    rw [ih later,first,overlay_assoc]
    rfl

theorem cells_setValues {m m' : Memory} {funcCode : ℕ} {address : ℤ} {values : List ℕ}
    (done : setValues m funcCode address values = .ok m') :
    cells m' = overlay (cells m) (written funcCode address values) := by
  funext ⟨t,a⟩
  by_cases named : funcTable funcCode = some t ∧ a ∈ Span.mk address (address + values.length)
  · obtain ⟨table,low,high⟩ := named
    simp only at low high
    obtain ⟨name,registers,code,found,rfl⟩ := setValues_ok done
    cases table.symm.trans code
    obtain ⟨k,rfl⟩ : ∃ k : ℕ, a = address + k := ⟨(a - address).toNat,by omega⟩
    have bound : k < values.length := by omega
    have stored := Registers.store_inside (r := registers) (a := address) (List.getElem?_eq_getElem bound)
    have word : written funcCode address values (t,address + k) = some values[k] := by simp [written,table,bound]
    rw [overlay_some word]
    simpa [cells,Memory.get] using stored
  · have away : funcTable funcCode = some t → a < address ∨ address + values.length ≤ a := by
      intro table
      have outside : a ∉ Span.mk address (address + values.length) := fun inside => named ⟨table,inside⟩
      simp only [Span.mem_def] at outside
      omega
    rw [overlay_none (written_none fun table inside => named ⟨table,inside⟩)]
    exact setValues_get done away

theorem setValues_tables {m m' : Memory} {funcCode : ℕ} {address : ℤ} {values : List ℕ}
    (done : setValues m funcCode address values = .ok m') (t : Table) : (m' t).isSome = (m t).isSome := by
  obtain ⟨name,table,_,found,rfl⟩ := setValues_ok done
  by_cases same : t = name
  · subst same
    simp [found]
  · simp [same]

/-- A table and addresses that a request names, all of them mapped. -/
def Names (m : Memory) (funcCode : ℕ) (span : Span) : Prop :=
  ∃ t, funcTable funcCode = some t ∧ (m t).isSome ∧ ∀ a ∈ span, (m.get t a).isSome

theorem setValues_iff {m : Memory} {funcCode : ℕ} {address : ℤ} {values : List ℕ} :
    (∃ m', setValues m funcCode address values = .ok m') ↔
      Names m funcCode (Span.mk address (address + values.length)) := by
  constructor
  · rintro ⟨m',done⟩
    unfold setValues selectTable at done
    cases code : funcTable funcCode with
    | none => simp [code,bind,Except.bind] at done
    | some t =>
      cases found : m t with
      | none => simp [code,found,bind,Except.bind] at done
      | some table =>
        simp only [code,found,bind,Except.bind] at done
        split_ifs at done with unmapped
        refine ⟨t,code,by rw [found]; rfl,fun a inside => ?_⟩
        simp only [Span.mem_def] at inside
        simp only [List.any_eq_true,List.mem_range,not_exists,not_and] at unmapped
        have mapped := unmapped (a - address).toNat (by omega)
        have here : address + ((a - address).toNat : ℤ) = a := by omega
        rw [here] at mapped
        simpa [Memory.get,found,Option.isSome_iff_ne_none] using mapped
  · rintro ⟨t,code,exist,mapped⟩
    obtain ⟨table,found⟩ := Option.isSome_iff_exists.mp exist
    refine ⟨_,setValues_mapped code found fun i bound => ?_⟩
    have inside : address + (i : ℤ) ∈ Span.mk address (address + values.length) := by
      simp only [Span.mem_def]
      omega
    simpa [Memory.get,found] using mapped _ inside

/-- A read is served exactly when all its addresses are mapped, with their words in order. -/
theorem getValues_iff {m : Memory} {funcCode : ℕ} {address : ℤ} {count : ℕ} :
    (∃ words, getValues m funcCode address count = .ok words) ↔
      Names m funcCode (Span.mk address (address + count)) := by
  constructor
  · rintro ⟨words,served⟩
    unfold getValues selectTable at served
    cases code : funcTable funcCode with
    | none => simp [code,bind,Except.bind] at served
    | some t =>
      cases found : m t with
      | none => simp [code,found,bind,Except.bind] at served
      | some table =>
        simp only [code,found,bind,Except.bind] at served
        split_ifs at served with unmapped
        refine ⟨t,code,by rw [found]; rfl,fun a inside => ?_⟩
        simp only [List.any_eq_true,not_exists,not_and] at unmapped
        have mapped := unmapped a (Span.mem_toList.mpr inside)
        simpa [Memory.get,found,Option.isSome_iff_ne_none] using mapped
  · rintro ⟨t,code,exist,mapped⟩
    obtain ⟨table,found⟩ := Option.isSome_iff_exists.mp exist
    have held : ∀ i < count, (table (address + (i : ℕ))).isSome := by
      intro i bound
      have inside : address + (i : ℤ) ∈ Span.mk address (address + count) := by
        simp only [Span.mem_def]
        omega
      simpa [Memory.get,found] using mapped _ inside
    obtain ⟨words,served,_⟩ := getValues_mapped code found held
    exact ⟨words,served⟩

theorem getValues_words {m : Memory} {funcCode : ℕ} {address : ℤ} {count : ℕ} {words : List ℕ}
    (served : getValues m funcCode address count = .ok words) :
    words.length = count ∧ ∀ t, funcTable funcCode = some t → ∀ i < count, words[i]? = m.get t (address + (i : ℕ)) := by
  obtain ⟨t,code,exist,mapped⟩ := getValues_iff.mp ⟨words,served⟩
  obtain ⟨table,found⟩ := Option.isSome_iff_exists.mp exist
  have inside (i : ℕ) (bound : i < count) : (table (address + (i : ℕ))).isSome := by
    have here : address + (i : ℤ) ∈ Span.mk address (address + count) := by
      simp only [Span.mem_def]
      omega
    simpa [Memory.get,found] using mapped _ here
  obtain ⟨words',served',same⟩ := getValues_mapped code found inside
  cases served.symm.trans served'
  constructor
  · -- Past the last word there would be another mapped address.
    unfold getValues selectTable at served
    simp only [code,found,bind,Except.bind] at served
    split_ifs at served with unmapped
    cases served
    rw [List.length_filterMap_eq_countP,List.countP_eq_length.mpr]
    · simp [Span.toList]
    · intro a member
      have here := mapped a (Span.mem_toList.mp member)
      simpa [Memory.get,found] using here
  · intro t' code' i bound
    cases code.symm.trans code'
    rw [same i bound]
    simp [Memory.get,found]

/-! ### The registers of a signal -/

/-- The registers of a mapping hold the words, one each. -/
def Holds (m : Memory) (mapping : ModbusMapping) (words : List ℕ) : Prop :=
  words.length = mapping.width ∧ ∀ i < mapping.width, words[i]? = m.get mapping.table (mapping.addr + (i : ℕ))

theorem Holds.congr {m m' : Memory} {mapping : ModbusMapping} {words : List ℕ} (holds : Holds m mapping words)
    (same : m' mapping.table = m mapping.table) : Holds m' mapping words := by
  refine ⟨holds.1,fun i bound => ?_⟩
  rw [holds.2 i bound,Memory.get,Memory.get,same]

theorem toList_nodup (span : Span) : span.toList.Nodup := by
  refine List.Nodup.map ?_ List.nodup_range
  intro i j same
  simp only at same
  omega

theorem span_toList_getElem {mapping : ModbusMapping} {i : ℕ} (bound : i < mapping.width) :
    mapping.span.toList[i]? = some (mapping.addr + (i : ℕ)) := by
  simp [Span.toList,ModbusMapping.span,bound]

/-- What puts words into a mapping's registers names each of them once. -/
theorem patch_spanUpdates {mapping : ModbusMapping} {words : List ℕ} (length : words.length = mapping.width) {i : ℕ}
    (bound : i < mapping.width) : patch (spanUpdates mapping words) (mapping.table,mapping.addr + (i : ℕ)) = words[i]? := by
  have word : words[i]? = some words[i] := List.getElem?_eq_getElem (length ▸ bound)
  rw [word]
  have entries : (spanUpdates mapping words).map (fun u => ((u.1,u.2.1),u.2.2)) =
      (mapping.span.toList.zip words).map (fun entry => ((mapping.table,entry.1),entry.2)) := by
    simp [spanUpdates]
  rw [patch,entries]
  apply assigned_of_mem
  · have keys : ((mapping.span.toList.zip words).map (fun entry => ((mapping.table,entry.1),entry.2))).map (·.1) =
        ((mapping.span.toList.zip words).map Prod.fst).map (fun a => (mapping.table,a)) := by simp
    rw [keys]
    refine List.Nodup.map (fun a b same => (Prod.mk.inj same).2) ?_
    have long : mapping.span.toList.length ≤ words.length := by simp [Span.toList,ModbusMapping.span,length]
    rw [List.map_fst_zip long]
    exact toList_nodup _
  · refine List.mem_map.mpr ⟨(mapping.addr + (i : ℕ),words[i]),?_,rfl⟩
    apply List.mem_of_getElem? (i := i)
    exact List.getElem?_zip_eq_some.mpr ⟨span_toList_getElem bound,word⟩

/-- Words committed to a mapping stay there when no later assignment names its registers. -/
theorem holds_update {m m' : Memory} {mapping : ModbusMapping} {words : List ℕ} {before after : List (Table × ℤ × ℕ)}
    (length : words.length = mapping.width) (away : ∀ u ∈ after, u.1 = mapping.table → u.2.1 ∉ mapping.span)
    (done : m.update (before ++ spanUpdates mapping words ++ after) = .ok m') : Holds m' mapping words := by
  refine ⟨length,fun i bound => ?_⟩
  have inside : mapping.addr + (i : ℤ) ∈ mapping.span := by
    simp only [Span.mem_def,ModbusMapping.span]
    omega
  have last : patch after (mapping.table,mapping.addr + (i : ℕ)) = none :=
    patch_none fun w member => away _ member rfl inside
  have word : patch (spanUpdates mapping words) (mapping.table,mapping.addr + (i : ℕ)) = some words[i] := by
    rw [patch_spanUpdates length bound]
    exact List.getElem?_eq_getElem (length ▸ bound)
  have committed := congrFun (cells_update done) (mapping.table,mapping.addr + (i : ℕ))
  rw [patch_append,patch_append,← overlay_assoc,overlay_none last,← overlay_assoc,overlay_some word] at committed
  rw [List.getElem?_eq_getElem (length ▸ bound)]
  exact committed.symm

/-- Different signals of one table share no register. -/
theorem signals_apart {contract : Contract} (valid : validate contract = .ok ()) {s t : Signal}
    (sListed : s ∈ contract.signals) (tListed : t ∈ contract.signals) (different : s ≠ t)
    (table : s.modbus.table = t.modbus.table) : Apart s.modbus.span t.modbus.span := by
  have apart := entries_apart (validate_ok valid).2.2.1
  rw [Contract.entries,List.pairwise_append,List.pairwise_map] at apart
  have symmetric : Std.Symm (fun a b : Signal => a.modbus.table = b.modbus.table → Apart a.modbus.span b.modbus.span) :=
    ⟨fun a b apart same => (apart same.symm).symm⟩
  exact List.Pairwise.forall apart.1 sListed tListed different table

/-! ### What a scan commits -/

/-- A register that only the PLC's scan has to do with: of a published signal, or of
    the ack block. -/
def Owned (plc : Plc) (t : Table) (a : ℤ) : Prop :=
  (∃ s ∈ [plc.actualSignal,plc.positionSignal,plc.cncStateSignal], t = s.modbus.table ∧ a ∈ s.modbus.span) ∨
    t = plc.contract.ackBlock.table ∧ a ∈ plc.contract.ackBlock.span

instance (plc : Plc) (t : Table) (a : ℤ) : Decidable (Owned plc t a) := inferInstanceAs (Decidable (_ ∨ _))

theorem readCommand_seq {plc : Plc} {image : InputImage} {command : Command}
    (read : readCommand plc image = .ok command) : ∃ a, image.holding a = some command.seq := by
  simp only [readCommand,bind_eq_ok,lookup_eq_ok] at read
  obtain ⟨_,_,_,_,_,_,seq,found,_,_,_,_,done⟩ := read
  cases done
  exact ⟨_,found⟩

/-- What `execute` puts out goes to the registers that the PLC owns, as words when the
    snapshot holds words. -/
theorem execute_commits {plc : Plc} (built : Built plc) {image : InputImage} {out : OutputImage}
    (executed : execute plc image = .ok out) : ∀ u ∈ out.memoryUpdates,
    Owned plc u.1 u.2.1 ∧ ((∀ a w, image.holding a = some w → w < 65536) → u.2.2 < 65536) := by
  obtain ⟨signals,command,hSignals,hCommand,_,_,acknowledges⟩ := execute_ok executed
  obtain ⟨_,_,speedWords,positionWords,_,stateWords,_,_,hSpeed,hPosition,_,hState,rfl⟩ := computeSignals_ok.mp hSignals
  have published {s : Signal} {value : Value} {encoded : List ℕ} {t : Table} {a : ℤ} {w : ℕ}
      (own : s ∈ [plc.actualSignal,plc.positionSignal,plc.cncStateSignal])
      (encodes : encode s.modbus value plc.contract.metadata = .ok encoded)
      (member : (t,a,w) ∈ spanUpdates s.modbus encoded) : Owned plc t a ∧ w < 65536 := by
    obtain ⟨table,inside,listed⟩ := spanUpdates_mem member
    exact ⟨.inl ⟨s,own,table,inside⟩,(encode_isWords encodes).2 w listed⟩
  have signals : ∀ u ∈ spanUpdates plc.actualSignal.modbus speedWords ++
      spanUpdates plc.positionSignal.modbus positionWords ++ spanUpdates plc.cncStateSignal.modbus stateWords,
      Owned plc u.1 u.2.1 ∧ u.2.2 < 65536 := by
    rintro ⟨t,a,w⟩ member
    rcases List.mem_append.mp member with first | state
    · rcases List.mem_append.mp first with speed | position
      · exact published (by simp) hSpeed speed
      · exact published (by simp) hPosition position
    · exact published (by simp) hState state
  rcases acknowledges with ⟨_,updates⟩ | ⟨e,resultIdx,seqIdx,pending,hResult,hSeq,updates⟩
  · rw [updates]
    intro u member
    obtain ⟨owned,small⟩ := signals u member
    exact ⟨owned,fun _ => small⟩
  · rw [updates]
    intro u member
    rcases List.mem_append.mp member with publishes | acked
    · obtain ⟨owned,small⟩ := signals u publishes
      exact ⟨owned,fun _ => small⟩
    · have own {name : String} {i : ℕ} (found : plc.ackIdx name = some i) :
          Owned plc plc.contract.ackBlock.table (plc.contract.ackBlock.base + i) :=
        .inr ⟨rfl,field_mem (built.ackIdx ▸ found)⟩
      have number (words : ∀ a w, image.holding a = some w → w < 65536) : e.seq < 65536 := by
        obtain ⟨a,found⟩ := readCommand_seq hCommand
        unfold execution at pending
        split_ifs at pending
        cases pending
        exact words a _ found
      have result : e.result.toNat < 65536 := by cases e.result <;> decide
      obtain ⟨table,isResult | isNumber⟩ := ackUpdates_mem acked
      · rw [table,isResult]
        exact ⟨own hResult,fun _ => result⟩
      · rw [table,isNumber]
        exact ⟨own hSeq,number⟩

/-! ### The map that a contract makes -/

/-- The tables and addresses of a memory are those of the contract's entries, and its
    words have 16 bits. -/
structure Fixed (contract : Contract) (m : Memory) : Prop where
  tables : ∀ t, (m t).isSome ↔ ∃ e ∈ contract.entries, e.table = t
  addresses : ∀ t a, (m.get t a).isSome ↔ ∃ e ∈ contract.entries, e.table = t ∧ a ∈ e.span
  words : ∀ t a w, m.get t a = some w → w < 65536

/-- Words laid over mapped addresses leave the map as it is. -/
theorem Fixed.overlay {contract : Contract} {m m' : Memory} (fixed : Fixed contract m)
    (tables : ∀ t, (m' t).isSome = (m t).isSome) {g : Table × ℤ → Option ℕ} (laid : cells m' = overlay (cells m) g)
    (known : ∀ p, (g p).isSome → (cells m p).isSome) (small : ∀ p w, g p = some w → w < 65536) :
    Fixed contract m' := by
  refine ⟨fun t => ?_,fun t a => ?_,fun t a w found => ?_⟩
  · rw [tables]
    exact fixed.tables t
  · have same : (m'.get t a).isSome = (m.get t a).isSome := by
      have here := congrFun laid (t,a)
      simp only [cells] at here
      rw [here]
      exact overlay_isSome known (t,a)
    rw [same]
    exact fixed.addresses t a
  · have here : Overlays.overlay (cells m) g (t,a) = some w := by
      rw [← laid]
      exact found
    rcases overlay_or here with new | old
    · exact small _ w new
    · exact fixed.words t a w old

theorem Fixed.setValues {contract : Contract} {m m' : Memory} (fixed : Fixed contract m) {funcCode : ℕ} {address : ℤ}
    {values : List ℕ} (words : ∀ w ∈ values, w < 65536) (done : setValues m funcCode address values = .ok m') :
    Fixed contract m' := by
  obtain ⟨t,code,_,mapped⟩ := setValues_iff.mp ⟨m',done⟩
  refine fixed.overlay (setValues_tables done) (cells_setValues done) ?_ ?_
  · rintro ⟨t',a⟩ named
    obtain ⟨table,inside⟩ := written_isSome.mp named
    cases code.symm.trans table
    exact mapped a inside
  · rintro ⟨t',a⟩ w named
    exact words w (written_some named).2.2

/-- Assignments of words to the registers of entries leave the map as it is. -/
theorem Fixed.update {contract : Contract} {m m' : Memory} (fixed : Fixed contract m) {updates : List (Table × ℤ × ℕ)}
    (listed : ∀ u ∈ updates, (∃ e ∈ contract.entries, e.table = u.1 ∧ u.2.1 ∈ e.span) ∧ u.2.2 < 65536)
    (done : m.update updates = .ok m') : Fixed contract m' := by
  refine fixed.overlay (update_tables done).1 (cells_update done) ?_ ?_
  · rintro ⟨t,a⟩ named
    obtain ⟨w,found⟩ := Option.isSome_iff_exists.mp named
    exact (fixed.addresses t a).mpr (listed _ (patch_mem found)).1
  · rintro ⟨t,a⟩ w named
    exact (listed _ (patch_mem named)).2

theorem signal_entry {contract : Contract} {s : Signal} (listed : s ∈ contract.signals) :
    Entry.mk s.modbus.table s.modbus.span s.name ∈ contract.entries := by
  simp only [Contract.entries,List.mem_append,List.mem_map]
  exact .inl ⟨s,listed,rfl⟩

theorem owned_entry {plc : Plc} (built : Built plc) {t : Table} {a : ℤ} (owned : Owned plc t a) :
    ∃ e ∈ plc.contract.entries, e.table = t ∧ a ∈ e.span := by
  rcases owned with ⟨s,own,rfl,inside⟩ | ⟨rfl,inside⟩
  · have listed : s ∈ plc.contract.signals := by
      simp only [List.mem_cons,List.not_mem_nil,or_false] at own
      rcases own with rfl | rfl | rfl
      · exact built.actual
      · exact built.position
      · exact built.cncState
    exact ⟨_,signal_entry listed,rfl,inside⟩
  · exact ⟨⟨plc.contract.ackBlock.table,plc.contract.ackBlock.span,"ack_block"⟩,by simp [Contract.entries],rfl,inside⟩

theorem Fixed.scan {plc : Plc} (built : Built plc) {s s' : PlcState} {dt : ℚ} (fixed : Fixed plc.contract s.memory)
    (scanned : scan plc s dt = .ok s') : Fixed plc.contract s'.memory := by
  obtain ⟨holding,out,hHolding,executed,updated⟩ := scan_memory scanned
  have words : ∀ a w, (snapshot s holding).holding a = some w → w < 65536 := by
    intro a w found
    have here : holding a = some w := found
    apply fixed.words .holding a w
    simpa [Memory.get,hHolding] using here
  refine fixed.update (fun u member => ?_) updated
  obtain ⟨owned,small⟩ := execute_commits built executed u member
  exact ⟨owned_entry built owned,small words⟩

/-- The registers of both blocks are in the map. -/
theorem Fixed.blocks {plc : Plc} (runnable : Runnable plc.contract) {s : PlcState} (fixed : Fixed plc.contract s.memory) :
    BlocksMapped plc s := by
  intro a inBlock
  apply (fixed.addresses .holding a).mpr
  rcases inBlock with inCommand | inAck
  · exact ⟨⟨plc.contract.commandBlock.table,plc.contract.commandBlock.span,"command_block"⟩,by simp [Contract.entries],
      runnable.commandTable,inCommand⟩
  · exact ⟨⟨plc.contract.ackBlock.table,plc.contract.ackBlock.span,"ack_block"⟩,by simp [Contract.entries],
      runnable.ackTable,inAck⟩

/-- The snapshot has a word at every address of a signal in the holding table. -/
theorem Fixed.holding_words {contract : Contract} {s : PlcState} {holding : Registers} (fixed : Fixed contract s.memory)
    (hHolding : s.memory .holding = some holding) {signal : Signal} (listed : signal ∈ contract.signals)
    (table : signal.modbus.table = .holding) :
    ∀ a ∈ signal.modbus.span, ∃ w, (snapshot s holding).holding a = some w ∧ w < 65536 := by
  intro a inside
  obtain ⟨w,found⟩ := Option.isSome_iff_exists.mp
    ((fixed.addresses signal.modbus.table a).mpr ⟨_,signal_entry listed,rfl,inside⟩)
  rw [table] at found
  refine ⟨w,?_,fixed.words _ a w found⟩
  simpa [snapshot,Memory.get,hHolding] using found

/-! ### Boot -/

theorem zeroRegisters_entries (contract : Contract) :
    zeroRegisters contract = contract.entries.foldl (fun m e => Memory.mapSpan m e.table e.span) (fun _ => none) := by
  simp only [zeroRegisters,Contract.entries,List.foldl_append,List.foldl_map,List.foldl_cons,List.foldl_nil]

theorem mapSpan_tables (m : Memory) (t : Table) (span : Span) (t' : Table) :
    (m.mapSpan t span t').isSome ↔ (m t').isSome ∨ t = t' := by
  by_cases same : t' = t
  · subst same
    simp [Memory.mapSpan]
  · simp [Memory.mapSpan,same,Ne.symm same]

theorem mapSpan_isSome (m : Memory) (t : Table) (span : Span) (t' : Table) (a : ℤ) :
    ((m.mapSpan t span).get t' a).isSome ↔ (m.get t' a).isSome ∨ t = t' ∧ a ∈ span := by
  rw [Memory.mapSpan_get]
  by_cases same : t' = t
  · subst same
    by_cases inside : a ∈ span <;> cases m.get t' a <;> simp [inside]
  · simp [same,Ne.symm same]

/-- Mapping spans one after another maps their union. -/
theorem foldl_mapSpan (entries : List Entry) (m : Memory) :
    (∀ t, (entries.foldl (fun m e => Memory.mapSpan m e.table e.span) m t).isSome ↔
      (m t).isSome ∨ ∃ e ∈ entries, e.table = t) ∧
    ∀ t a, ((entries.foldl (fun m e => Memory.mapSpan m e.table e.span) m).get t a).isSome ↔
      (m.get t a).isSome ∨ ∃ e ∈ entries, e.table = t ∧ a ∈ e.span := by
  induction entries generalizing m with
  | nil => simp
  | cons e rest ih =>
    obtain ⟨tables,addresses⟩ := ih (m.mapSpan e.table e.span)
    refine ⟨fun t => ?_,fun t a => ?_⟩
    · rw [List.foldl_cons,tables,mapSpan_tables]
      simp only [List.exists_mem_cons_iff,or_assoc]
    · rw [List.foldl_cons,addresses,mapSpan_isSome]
      simp only [List.exists_mem_cons_iff,or_assoc]

theorem zeroRegisters_fixed (contract : Contract) : Fixed contract (zeroRegisters contract) := by
  obtain ⟨tables,addresses⟩ := foldl_mapSpan contract.entries (fun _ => none)
  refine ⟨fun t => ?_,fun t a => ?_,fun t a w found => ?_⟩
  · rw [zeroRegisters_entries,tables]
    simp
  · rw [zeroRegisters_entries,addresses]
    simp [Memory.get]
  · rcases zeroRegisters_get contract t a with absent | zero
    · rw [absent] at found
      cases found
    · rw [zero] at found
      cases found
      decide

/-- Seeding the ramp time keeps to the map. -/
theorem boot_fixed {contract : Contract} {conveyor : Conveyor} {cnc : Cnc} {plc : Plc} {s : PlcState}
    (booted : boot contract conveyor cnc = .ok (plc,s)) :
    plc.contract = contract ∧ Built plc ∧ Fixed contract s.memory := by
  obtain ⟨created,memory,seeded,rfl⟩ := boot_ok.mp booted
  obtain ⟨rfl,built⟩ := new_built created
  simp only [initRegisters,bind_eq_ok] at seeded
  obtain ⟨words,encoded,updated⟩ := seeded
  refine ⟨rfl,built,(zeroRegisters_fixed _).update (fun u member => ?_) updated⟩
  obtain ⟨t,a,w⟩ := u
  obtain ⟨table,inside,listed⟩ := spanUpdates_mem member
  exact ⟨⟨_,signal_entry built.ramp,table.symm,inside⟩,(encode_isWords encoded).2 w listed⟩

/-! ### Traffic -/

/-- What happens at a PLC: a scan, or a Modbus request of some master. -/
inductive Traffic
  | scan (dt : ℚ)
  | read (funcCode : ℕ) (address : ℤ) (count : ℕ)
  | write (funcCode : ℕ) (address : ℤ) (values : List ℕ)
deriving DecidableEq

def Traffic.isScan : Traffic → Bool
  | .scan _ => true
  | _ => false

/-- A scan is served when it completes, a read changes nothing. -/
def serve (plc : Plc) (s : PlcState) : Traffic → Option PlcState
  | .scan dt => Plc.step plc s (.scan dt)
  | .read _ _ _ => some s
  | .write funcCode address values => Plc.step plc s (.write funcCode address values)

/-- A request that writes nothing but words of 16 bits. -/
def Words : Traffic → Prop
  | .write _ _ values => ∀ w ∈ values, w < 65536
  | _ => True

instance : ∀ a : Traffic, Decidable (Words a)
  | .write _ _ values => inferInstanceAs (Decidable (∀ w ∈ values, w < 65536))
  | .scan _ | .read _ _ _ => inferInstanceAs (Decidable True)

/-- The requests at a state are served as a whole or not at all: exactly those whose
    function code selects a table of the contract with all their addresses mapped. -/
structure AllOrNothing (contract : Contract) (s : PlcState) : Prop where
  reads : ∀ funcCode address count, (∃ words, getValues s.memory funcCode address count = .ok words) ↔
    ∃ t, funcTable funcCode = some t ∧ (∃ e ∈ contract.entries, e.table = t) ∧
      ∀ a ∈ Span.mk address (address + count), (s.memory.get t a).isSome
  returned : ∀ funcCode address count words, getValues s.memory funcCode address count = .ok words →
    words.length = count ∧
      ∀ t, funcTable funcCode = some t → ∀ i < count, words[i]? = s.memory.get t (address + (i : ℕ))
  writes : ∀ funcCode address (values : List ℕ), (∃ m, setValues s.memory funcCode address values = .ok m) ↔
    ∃ t, funcTable funcCode = some t ∧ (∃ e ∈ contract.entries, e.table = t) ∧
      ∀ a ∈ Span.mk address (address + values.length), (s.memory.get t a).isSome
  stored : ∀ funcCode address values m, setValues s.memory funcCode address values = .ok m →
    request s funcCode address values = { s with memory := m } ∧
      ∀ t a, m.get t a = if funcTable funcCode = some t ∧ a ∈ Span.mk address (address + values.length)
        then values[(a - address).toNat]? else s.memory.get t a
  refused : ∀ funcCode address values e, setValues s.memory funcCode address values = .error e →
    request s funcCode address values = s

theorem Fixed.names {contract : Contract} {m : Memory} (fixed : Fixed contract m) {funcCode : ℕ} {span : Span} :
    Names m funcCode span ↔ ∃ t, funcTable funcCode = some t ∧ (∃ e ∈ contract.entries, e.table = t) ∧
      ∀ a ∈ span, (m.get t a).isSome := by
  simp only [Names,fixed.tables]

theorem setValues_stored {m m' : Memory} {funcCode : ℕ} {address : ℤ} {values : List ℕ}
    (done : setValues m funcCode address values = .ok m') (t : Table) (a : ℤ) :
    m'.get t a = if funcTable funcCode = some t ∧ a ∈ Span.mk address (address + values.length)
      then values[(a - address).toNat]? else m.get t a := by
  have here : m'.get t a = overlay (cells m) (written funcCode address values) (t,a) := by
    rw [← cells_setValues done]
    rfl
  rw [here]
  split_ifs with named
  · obtain ⟨w,found⟩ := Option.isSome_iff_exists.mp (written_isSome.mpr named)
    rw [overlay_some found,← found,written,if_pos ⟨named.1,named.2.1⟩]
  · exact overlay_none (written_none fun table inside => named ⟨table,inside⟩)

theorem Fixed.allOrNothing {contract : Contract} {s : PlcState} (fixed : Fixed contract s.memory) :
    AllOrNothing contract s where
  reads _ _ _ := getValues_iff.trans fixed.names
  returned _ _ _ _ served := getValues_words served
  writes _ _ _ := setValues_iff.trans fixed.names
  stored funcCode address values m done := by
    refine ⟨?_,setValues_stored done⟩
    rw [request,done]
  refused funcCode address values e refused := by
    rw [request,refused]

theorem Fixed.request {contract : Contract} {s : PlcState} (fixed : Fixed contract s.memory) {funcCode : ℕ}
    {address : ℤ} {values : List ℕ} (words : ∀ w ∈ values, w < 65536) :
    Fixed contract (request s funcCode address values).memory := by
  unfold Plc.request
  cases done : ModbusServer.setValues s.memory funcCode address values with
  | ok m => exact fixed.setValues words done
  | error e => exact fixed

theorem Fixed.serve {plc : Plc} (built : Built plc) {s t : PlcState} {a : Traffic} (fixed : Fixed plc.contract s.memory)
    (words : Words a) (served : serve plc s a = some t) : Fixed plc.contract t.memory := by
  cases a with
  | scan dt => exact fixed.scan built (toOption_eq_ok.mp served)
  | read =>
    cases served
    exact fixed
  | write =>
    cases served
    exact fixed.request words

/-- The map stands at every state that a booted PLC comes to. -/
theorem run_fixed {contract : Contract} {conveyor : Conveyor} {cnc : Cnc} {plc : Plc} {s₀ : PlcState}
    (booted : boot contract conveyor cnc = .ok (plc,s₀)) {actions : List Traffic} (words : ∀ a ∈ actions, Words a)
    {s : PlcState} (reached : run (serve plc) s₀ actions = some s) : Fixed contract s.memory := by
  obtain ⟨rfl,built,start⟩ := boot_fixed booted
  refine run_induction (P := fun actions s => (∀ a ∈ actions, Words a) → Fixed plc.contract s.memory) (fun _ => start) ?_
    actions s reached words
  intro actions s a t _ ih served words
  exact (ih fun b member => words b (List.mem_append_left _ member)).serve built (words a (by simp)) served

/-- After every run of scans and requests the registers mapped are those of the
    contract, with words in them, and a request is served as a whole or not at all. -/
theorem map_fixed {contract : Contract} {conveyor : Conveyor} {cnc : Cnc} {plc : Plc} {s₀ : PlcState}
    (booted : boot contract conveyor cnc = .ok (plc,s₀)) {actions : List Traffic} (words : ∀ a ∈ actions, Words a)
    {s : PlcState} (reached : run (serve plc) s₀ actions = some s) :
    Fixed contract s.memory ∧ AllOrNothing contract s :=
  ⟨run_fixed booted words reached,(run_fixed booted words reached).allOrNothing⟩

theorem shipped_map_fixed :
    let actions := [.write 16 12 [0x3F80,0],.scan (1 / 100),.write 16 10 [1,2,3],.read 4 20 1,.write 4 20 [7],.read 3 13 2,
      .scan (1 / 100)]
    ∃ s, run (serve Shipped.plc) Shipped.booted actions = some s ∧ Fixed Shipped.tags s.memory ∧
      AllOrNothing Shipped.tags s := by
  intro actions
  obtain ⟨s,reached⟩ := Option.isSome_iff_exists.mp
    (by decide +kernel : (run (serve Shipped.plc) Shipped.booted actions).isSome)
  exact ⟨s,reached,map_fixed Shipped.boot_booted (by decide +kernel) reached⟩

end MockPlant.RegisterMap
