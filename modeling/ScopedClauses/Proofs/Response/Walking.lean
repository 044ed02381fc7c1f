import ScopedClauses.Proofs.Response.Scopes

/-!
Walks down the aggregations of a bucket, and the conditions that are met on them. Each entry of a
scope may choose a nested document of its own, where assembling chooses one for each scope; the
two agree on steps that are regular.
-/

namespace ScopedClauses

structure Spot where
  trail : List (String × Nat)
  step : Step

namespace Step

def spots : Nat → List (String × Nat) → List Step → List Spot
  | _, _, [] => []
  | next, trail, .test condition :: rest => ⟨trail, .test condition⟩ :: spots next trail rest
  | next, trail, .cross (.enter path) :: rest =>
      ⟨trail, .cross (.enter path)⟩ :: spots (next + 1) ((path, next) :: trail) rest
  | next, trail, .cross (.exit target) :: rest =>
      ⟨trail, .cross (.exit target)⟩ :: spots next ((back? target trail).getD []) rest

def fragment? (spot : Spot) : Option Fragment :=
  match spot.step with
  | .test condition => some ⟨spot.trail.head?.map (·.1), condition⟩
  | .cross _ => none

/-! ### Trails -/

theorem back?_suffix {target : Option String} {trail rest : List (String × α)}
    (back : back? target trail = some rest) : ∃ front, trail = front ++ rest := by
  cases target with
  | none =>
      cases back
      exact ⟨trail, by simp⟩
  | some path =>
      rw [back?] at back
      induction trail with
      | nil => cases back
      | cons entry outer ih =>
          rw [backTo?] at back
          split at back
          · cases back
            exact ⟨[], rfl⟩
          · obtain ⟨front, rfl⟩ := ih back
            exact ⟨entry :: front, rfl⟩

theorem back?_map (target : Option String) (trail : List (String × α)) (change : α → β) :
    back? target (trail.map fun entry => (entry.1, change entry.2)) =
      (back? target trail).map (List.map fun entry => (entry.1, change entry.2)) := by
  cases target with
  | none => rfl
  | some path =>
      simp only [back?]
      induction trail with
      | nil => rfl
      | cons entry outer ih =>
          rw [List.map_cons, backTo?, backTo?]
          split
          · rfl
          · exact ih

theorem chained_spots {mapping : Mapping} {next : Nat} {trail : List (String × Nat)}
    {steps : List Step} (start : mapping.Chained (trail.map (·.1)))
    (declared : ∀ spot ∈ spots next trail steps, ∀ path, spot.step = .cross (.enter path) →
      mapping.nestedScopes path = .ok (path :: spot.trail.map (·.1))) :
    ∀ spot ∈ spots next trail steps, mapping.Chained (spot.trail.map (·.1)) := by
  induction steps generalizing next trail with
  | nil => exact fun _ none => by cases none
  | cons step rest ih =>
      cases step with
      | test condition =>
          rw [spots, List.forall_mem_cons] at declared ⊢
          exact ⟨start, ih start declared.2⟩
      | cross boundary =>
          cases boundary with
          | enter path =>
              rw [spots, List.forall_mem_cons] at declared ⊢
              exact ⟨start, ih ⟨declared.1 path rfl, start⟩ declared.2⟩
          | exit target =>
              rw [spots, List.forall_mem_cons] at declared ⊢
              refine ⟨start, ih ?_ declared.2⟩
              cases back : back? target trail with
              | none => trivial
              | some left =>
                  obtain ⟨front, rfl⟩ := back?_suffix back
                  rw [List.map_append] at start
                  exact Mapping.chained_suffix start

end Step

namespace Document

open Step

section Entries

variable (document : Document) (entries : Nat → Document)

def reached : List (String × Nat) → Document
  | [] => document
  | (_, entry) :: _ => entries entry

def Standing : List (String × Nat) → Prop
  | [] => True
  | (path, entry) :: outer => entries entry ∈ (document.reached entries outer).inner path ∧
      Standing outer

def filled (trail : List (String × Nat)) : List (String × Document) :=
  trail.map fun entry => (entry.1, entries entry.2)

theorem current_filled (trail : List (String × Nat)) :
    document.current (filled entries trail) = document.reached entries trail := by
  cases trail <;> rfl

variable {document entries}

theorem standing_suffix {front back : List (String × Nat)}
    (standing : document.Standing entries (front ++ back)) : document.Standing entries back := by
  induction front with
  | nil => exact standing
  | cons entry rest ih => exact ih standing.2

theorem standing_congr {others : Nat → Document} {trail : List (String × Nat)}
    (same : ∀ entry ∈ trail, others entry.2 = entries entry.2) :
    document.reached others trail = document.reached entries trail ∧
      (document.Standing others trail ↔ document.Standing entries trail) := by
  induction trail with
  | nil => exact ⟨rfl, Iff.rfl⟩
  | cons entry outer ih =>
      rw [List.forall_mem_cons] at same
      obtain ⟨here, standing⟩ := ih same.2
      exact ⟨same.1, by rw [Standing, Standing, same.1, here, standing]⟩

section Entering

/-! The entry that is made next takes a number that the trail does not know. -/

variable {trail : List (String × Nat)} {next : Nat} (early : ∀ entry ∈ trail, entry.2 < next)
  (nested : Document)

include early

theorem updated_on_trail :
    ∀ entry ∈ trail, Function.update entries next nested entry.2 = entries entry.2 :=
  fun entry listed => Function.update_of_ne (Nat.ne_of_lt (early entry listed)) ..

theorem filled_enter (path : String) :
    filled (Function.update entries next nested) ((path, next) :: trail) =
      (path, nested) :: filled entries trail := by
  rw [filled, List.map_cons, Function.update_self]
  refine congrArg _ (List.map_congr_left fun entry listed => ?_)
  rw [updated_on_trail early nested entry listed]

theorem standing_enter {path : String} (standing : document.Standing entries trail)
    (member : nested ∈ (document.reached entries trail).inner path) :
    document.Standing (Function.update entries next nested) ((path, next) :: trail) := by
  obtain ⟨place, stands⟩ : document.reached (Function.update entries next nested) trail =
      document.reached entries trail ∧ _ := standing_congr (updated_on_trail early nested)
  refine ⟨?_, stands.mpr standing⟩
  rw [Function.update_self, place]
  exact member

end Entering

end Entries

theorem exists_entries {document : Document} {steps : List Step} {next : Nat}
    {trail : List (String × Nat)} {entries : Nat → Document}
    (early : ∀ entry ∈ trail, entry.2 < next) (standing : document.Standing entries trail)
    (admitted : document.admits (filled entries trail) steps = true) :
    ∃ chosen : Nat → Document, (∀ number < next, chosen number = entries number) ∧
      ∀ spot ∈ spots next trail steps, document.Standing chosen spot.trail ∧
        ∀ condition, spot.step = .test condition →
          (document.reached chosen spot.trail).holds condition = true := by
  -- an entry takes the next number, so the choices made before it stay
  induction steps generalizing next trail entries with
  | nil => exact ⟨entries, fun _ _ => rfl, fun _ none => by cases none⟩
  | cons step rest ih =>
      have here : ∀ chosen : Nat → Document, (∀ number < next, chosen number = entries number) →
          document.reached chosen trail = document.reached entries trail ∧
            document.Standing chosen trail := by
        intro chosen same
        have onTrail : ∀ entry ∈ trail, chosen entry.2 = entries entry.2 :=
          fun entry listed => same entry.2 (early entry listed)
        exact ⟨(standing_congr onTrail).1, (standing_congr onTrail).2.mpr standing⟩
      cases step with
      | test condition =>
          rw [admits, current_filled, Bool.and_eq_true] at admitted
          obtain ⟨chosen, same, all⟩ := ih early standing admitted.2
          obtain ⟨place, stands⟩ := here chosen same
          refine ⟨chosen, same, List.forall_mem_cons.mpr ⟨⟨stands, fun other found => ?_⟩, all⟩⟩
          cases found
          rw [place]
          exact admitted.1
      | cross boundary =>
          cases boundary with
          | enter path =>
              rw [admits, current_filled, List.any_eq_true] at admitted
              obtain ⟨nested, member, admitted⟩ := admitted
              rw [← filled_enter early nested path] at admitted
              have earlier : ∀ entry ∈ (path, next) :: trail, entry.2 < next + 1 :=
                List.forall_mem_cons.mpr ⟨Nat.lt_succ_self next, fun entry listed =>
                  Nat.lt_succ_of_lt (early entry listed)⟩
              obtain ⟨chosen, same, all⟩ :=
                ih earlier (standing_enter early nested standing member) admitted
              have kept : ∀ number < next, chosen number = entries number := by
                intro number lower
                rw [same number (by omega), Function.update_of_ne (Nat.ne_of_lt lower)]
              refine ⟨chosen, kept, List.forall_mem_cons.mpr ⟨⟨(here chosen kept).2, ?_⟩, all⟩⟩
              intro other found
              cases found
          | exit target =>
              rw [admits, filled, back?_map] at admitted
              cases back : back? target trail with
              | none => simp [back] at admitted
              | some left =>
                  obtain ⟨front, rfl⟩ := back?_suffix back
                  rw [back] at admitted
                  obtain ⟨chosen, same, all⟩ := ih
                    (fun entry listed => early entry (List.mem_append_right _ listed))
                    (standing_suffix standing) admitted
                  rw [spots, back]
                  refine ⟨chosen, same, List.forall_mem_cons.mpr ⟨⟨(here chosen same).2, ?_⟩, all⟩⟩
                  intro other found
                  cases found

end Document

end ScopedClauses
