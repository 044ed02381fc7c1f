import ScopedClauses.Error

/-!
Results taken apart: what is known of the steps when a whole computation succeeds.
-/

namespace ScopedClauses

namespace Result

variable {first : Result α} {next : α → Result β}

theorem bind_ok {value : β} :
    first >>= next = .ok value ↔ ∃ middle, first = .ok middle ∧ next middle = .ok value := by
  cases first <;> simp [bind, Except.bind]

theorem pure_ok {found value : α} : (pure found : Result α) = .ok value ↔ found = value := by
  simp [pure, Except.pure]

theorem throw_ok {error : Error} {value : α} : (throw error : Result α) = .ok value ↔ False := by
  simp [throw, throwThe, MonadExceptOf.throw]

theorem map_ok {change : α → β} {value : β} :
    change <$> first = .ok value ↔ ∃ middle, first = .ok middle ∧ change middle = value := by
  cases first <;> simp [Functor.map, Except.map]

@[simp] theorem ok_bind (middle : α) : (Except.ok middle : Result α) >>= next = next middle := rfl

@[simp] theorem error_bind (error : Error) :
    (Except.error error : Result α) >>= next = .error error := rfl

@[simp] theorem pure_bind (middle : α) : (pure middle : Result α) >>= next = next middle := rfl

@[simp] theorem throw_bind (error : Error) : (throw error : Result α) >>= next = .error error := rfl

theorem bind_pure_map (change : α → β) :
    (first >>= fun middle => pure (change middle)) = change <$> first := by
  cases first <;> rfl

theorem mapM_ok {change : α → Result β} {items : List α} {made : List β}
    (done : items.mapM change = .ok made) : ∀ result ∈ made, ∃ item ∈ items,
      change item = .ok result := by
  induction items generalizing made with
  | nil =>
      cases pure_ok.mp done
      simp
  | cons item rest ih =>
      simp only [List.mapM_cons, bind_ok, pure_ok] at done
      obtain ⟨first, here, others, later, rfl⟩ := done
      refine List.forall_mem_cons.mpr ⟨⟨item, by simp, here⟩, fun result listed => ?_⟩
      obtain ⟨source, present, same⟩ := ih later result listed
      exact ⟨source, List.mem_cons_of_mem _ present, same⟩

theorem toOption_eq_some {result : Result α} {value : α} :
    result.toOption = some value ↔ result = .ok value := by
  cases result <;> simp [Except.toOption]

theorem ok_of_any {result : Result α} {test : α → Bool} (passed : result.toOption.any test = true) :
    ∃ value, result = .ok value ∧ test value = true := by
  cases result with
  | error error => cases passed
  | ok value => exact ⟨value, rfl, passed⟩

/-! ### Verdicts -/

def verdict (result : Result α) : Result Unit := (fun _ => ()) <$> result

@[simp] theorem verdict_ok {value : α} : verdict (.ok value) = .ok () := rfl

@[simp] theorem verdict_error {error : Error} : verdict (.error error : Result α) = .error error := rfl

theorem verdict_eq_ok {result : Result α} : verdict result = .ok () ↔ ∃ value, result = .ok value := by
  cases result <;> simp

theorem verdict_eq_error {result : Result α} {error : Error} :
    verdict result = .error error ↔ result = .error error := by
  cases result <;> simp

theorem verdict_map {change : α → β} : verdict (change <$> first) = verdict first := by
  cases first <;> rfl

theorem verdict_bind {rest : Result Unit}
    (later : ∀ value, first = .ok value → verdict (next value) = rest) :
    verdict (first >>= next) = verdict first >>= fun _ => rest := by
  cases first with
  | error error => rfl
  | ok value => exact later value rfl

/-- A list passes when all its items do; otherwise the first one that does not gives the error. -/
theorem forM_ok {check : α → Result Unit} {items : List α} :
    forM items check = .ok () ↔ ∀ item ∈ items, check item = .ok () := by
  induction items with
  | nil => simp [pure, Except.pure]
  | cons item rest ih =>
      simp only [List.forM_cons, bind_ok, ih, List.forall_mem_cons, exists_and_right]
      exact and_congr_left fun _ => ⟨fun ⟨_, passed⟩ => passed, fun passed => ⟨(), passed⟩⟩

theorem forM_error {check : α → Result Unit} {items : List α} {error : Error} :
    forM items check = .error error ↔ ∃ front item back, items = front ++ item :: back ∧
      (∀ other ∈ front, check other = .ok ()) ∧ check item = .error error := by
  constructor
  · intro failed
    induction items with
    | nil => cases failed
    | cons item rest ih =>
        rw [List.forM_cons] at failed
        cases checked : check item with
        | error own =>
            rw [checked] at failed
            exact ⟨[], item, rest, rfl, by simp, checked.trans failed⟩
        | ok _ =>
            rw [checked] at failed
            obtain ⟨front, other, back, rfl, passed, refused⟩ := ih failed
            exact ⟨item :: front, other, back, rfl,
              List.forall_mem_cons.mpr ⟨checked, passed⟩, refused⟩
  · rintro ⟨front, item, back, rfl, passed, refused⟩
    rw [List.forM_append, forM_ok.mpr passed, ok_bind, List.forM_cons, refused]
    rfl

/-! ### Two runs -/

def Echoes (related : α → β → Prop) (first : Result α) (second : Result β) : Prop :=
  ∀ value, first = .ok value → ∃ other, second = .ok other ∧ related value other

namespace Echoes

variable {related : α → β → Prop} {closing : γ → δ → Prop} {first : Result α} {second : Result β}
  {next : α → Result γ} {follow : β → Result δ}

theorem pure {value : α} {other : β} (both : related value other) :
    Echoes related (pure value) (pure other) := by
  rintro _ ⟨⟩
  exact ⟨other, rfl, both⟩

theorem error {error : Error} : Echoes related (.error error) second := by
  rintro _ ⟨⟩

theorem mono {wider : α → β → Prop} (echoes : Echoes related first second)
    (weaken : ∀ value other, related value other → wider value other) :
    Echoes wider first second := by
  intro value done
  obtain ⟨other, echoed, both⟩ := echoes value done
  exact ⟨other, echoed, weaken value other both⟩

theorem bind (start : Echoes related first second)
    (later : ∀ value other, related value other → Echoes closing (next value) (follow other)) :
    Echoes closing (first >>= next) (second >>= follow) := by
  intro value done
  obtain ⟨middle, begun, ended⟩ := bind_ok.mp done
  obtain ⟨other, echoed, both⟩ := start middle begun
  obtain ⟨last, closed, kept⟩ := later middle other both value ended
  exact ⟨last, bind_ok.mpr ⟨other, echoed, closed⟩, kept⟩

theorem map {change : α → γ} {alter : β → δ} (start : Echoes related first second)
    (both : ∀ value other, related value other → closing (change value) (alter other)) :
    Echoes closing (change <$> first) (alter <$> second) := by
  rw [← bind_pure_map, ← bind_pure_map]
  exact start.bind fun value other kept => .pure (both value other kept)

theorem after {step : Result α} {follow : α → Result δ}
    (later : ∀ value, step = .ok value → Echoes closing (next value) (follow value)) :
    Echoes closing (step >>= next) (step >>= follow) := by
  intro value done
  obtain ⟨middle, begun, ended⟩ := bind_ok.mp done
  obtain ⟨last, closed, kept⟩ := later middle begun value ended
  exact ⟨last, bind_ok.mpr ⟨middle, begun, closed⟩, kept⟩

end Echoes

end Result

end ScopedClauses
