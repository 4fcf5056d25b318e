import Mathlib

/-!
A filter of updates. Every update has a key, and an update is passed on unless it is noise
beside the last update of its key that was passed on. Then what was passed on last stands
for what came in last, up to noise, and no two neighbours that were passed on are noise.
-/
namespace MockPlant.Reports
variable {υ κ : Type*} [DecidableEq κ] (key : υ → κ) (noise : υ → υ → Bool)

/-- The update is not noise beside what is remembered of its key. -/
def news (memory : κ → Option υ) (u : υ) : Bool :=
  match memory (key u) with
  | some last => !noise last u
  | none => true

def remember (memory : κ → Option υ) (u : υ) : κ → Option υ :=
  if news key noise memory u then Function.update memory (key u) (some u) else memory

/-- What is remembered after a list of updates. -/
def after (memory : κ → Option υ) (updates : List υ) : κ → Option υ := updates.foldl (remember key noise) memory

/-- The updates of a list that are passed on. -/
def passed : (κ → Option υ) → List υ → List υ
  | _, [] => []
  | memory, u :: rest =>
    if news key noise memory u then u :: passed (remember key noise memory u) rest
    else passed (remember key noise memory u) rest

/-- The updates of a key. -/
def ofKey (k : κ) (updates : List υ) : List υ := updates.filter (fun u => key u = k)

variable {key noise}

@[simp] theorem after_concat (memory : κ → Option υ) (updates : List υ) (u : υ) :
    after key noise memory (updates ++ [u]) = remember key noise (after key noise memory updates) u := by
  simp [after]

theorem passed_concat (memory : κ → Option υ) (updates : List υ) (u : υ) :
    passed key noise memory (updates ++ [u]) = passed key noise memory updates ++
      if news key noise (after key noise memory updates) u then [u] else [] := by
  induction updates generalizing memory with
  | nil =>
    simp only [passed,after,List.nil_append,List.foldl_nil]
    rfl
  | cons first rest ih =>
    simp only [List.cons_append,passed,ih,after,List.foldl_cons]
    by_cases isNews : news key noise memory first = true
    · simp only [isNews,if_true]
      rfl
    · simp only [isNews]
      rfl

theorem mem_of_mem_passed {memory : κ → Option υ} {updates : List υ} {u : υ}
    (member : u ∈ passed key noise memory updates) : u ∈ updates := by
  induction updates generalizing memory with
  | nil => simp [passed] at member
  | cons first rest ih =>
    simp only [passed] at member
    split_ifs at member
    · rcases List.mem_cons.mp member with rfl | later
      · exact List.mem_cons_self
      · exact List.mem_cons_of_mem _ (ih later)
    · exact List.mem_cons_of_mem _ (ih member)

theorem ofKey_concat (k : κ) (updates : List υ) (u : υ) :
    ofKey key k (updates ++ [u]) = ofKey key k updates ++ if key u = k then [u] else [] := by
  by_cases same : key u = k <;> simp [ofKey,same]

/-- What is remembered of a key is the last update of it that was passed on. -/
theorem after_eq_last (updates : List υ) (k : κ) :
    after key noise (fun _ => none) updates k = (ofKey key k (passed key noise (fun _ => none) updates)).getLast? := by
  induction updates using List.reverseRecOn with
  | nil => rfl
  | append_singleton updates u ih =>
    rw [after_concat,passed_concat,remember]
    split_ifs with isNews
    · rw [ofKey_concat]
      by_cases same : key u = k
      · subst same
        simp
      · simp [Function.update_of_ne (Ne.symm same),same,ih]
    · simpa using ih

/-- What came in last of a key was passed on, or is noise beside what was passed on last. -/
theorem close (updates : List υ) {k : κ} {u : υ} (received : (ofKey key k updates).getLast? = some u) :
    ∃ r, (ofKey key k (passed key noise (fun _ => none) updates)).getLast? = some r ∧ (r = u ∨ noise r u = true) := by
  induction updates using List.reverseRecOn with
  | nil => simp [ofKey] at received
  | append_singleton updates last ih =>
    rw [ofKey_concat] at received
    rw [passed_concat]
    by_cases same : key last = k
    · simp only [same,if_true,List.getLast?_append,List.getLast?_singleton,Option.some_or,Option.some.injEq] at received
      subst received
      split_ifs with isNews
      · exact ⟨last,by simp [ofKey_concat,same],.inl rfl⟩
      · rw [List.append_nil,← after_eq_last]
        cases remembered : after key noise (fun _ => none) updates k with
        | none => simp [news,same,remembered] at isNews
        | some r => exact ⟨r,rfl,.inr (by simpa [news,same,remembered] using isNews)⟩
    · simp only [same,if_false,List.append_nil] at received
      obtain ⟨r,passedOn,near⟩ := ih received
      refine ⟨r,?_,near⟩
      split_ifs
      · simpa [ofKey_concat,same] using passedOn
      · simpa using passedOn

/-- Neighbours of a key that were passed on are not noise. -/
theorem apart (updates : List υ) (k : κ) :
    (ofKey key k (passed key noise (fun _ => none) updates)).IsChain (fun r r' => noise r r' = false) := by
  induction updates using List.reverseRecOn with
  | nil => exact List.IsChain.nil
  | append_singleton updates u ih =>
    rw [passed_concat]
    split_ifs with isNews
    · rw [ofKey_concat]
      split_ifs with same
      · refine List.isChain_append.mpr ⟨ih,List.isChain_singleton _,?_⟩
        rintro r last u' ⟨⟩
        rw [← after_eq_last] at last
        simpa [news,same,Option.mem_def.mp last] using isNews
      · simpa using ih
    · simpa using ih

end MockPlant.Reports
