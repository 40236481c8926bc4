import Mathlib.Data.List.Forall2

/-!
Outcomes of computations that may fail, read backwards: what must have succeeded for a result to be
there.
-/

namespace Versioning

namespace Outcome

variable {ε δ α β : Type}

theorem bind_eq_ok_iff {first : Except ε α} {next : α → Except ε β} {result : β} :
    first >>= next = .ok result ↔ ∃ value, first = .ok value ∧ next value = .ok result := by
  cases first <;> simp [bind, Except.bind]

theorem bind_eq_error_iff {first : Except ε α} {next : α → Except ε β} {error : ε} :
    first >>= next = .error error ↔
      first = .error error ∨ ∃ value, first = .ok value ∧ next value = .error error := by
  cases first <;> simp [bind, Except.bind]

theorem pure_eq_ok_iff {value result : α} :
    (pure value : Except ε α) = .ok result ↔ value = result := by
  simp [pure, Except.pure]

theorem mapError_eq_ok_iff {outcome : Except ε α} {convert : ε → δ} {result : α} :
    outcome.mapError convert = .ok result ↔ outcome = .ok result := by
  cases outcome <;> simp [Except.mapError]

theorem map_eq_ok_iff {outcome : Except ε α} {convert : α → β} {result : β} :
    outcome.map convert = .ok result ↔ ∃ value, outcome = .ok value ∧ convert value = result := by
  cases outcome <;> simp [Except.map]

theorem mapError_eq_error_iff {outcome : Except ε α} {convert : ε → δ} {error : δ} :
    outcome.mapError convert = .error error ↔
      ∃ cause, outcome = .error cause ∧ convert cause = error := by
  cases outcome <;> simp [Except.mapError]

theorem map_eq_error_iff {outcome : Except ε α} {convert : α → β} {error : ε} :
    outcome.map convert = .error error ↔ outcome = .error error := by
  cases outcome <;> simp [Except.map]

theorem bind_pure_eq_error_iff {first : Except ε α} {convert : α → β} {error : ε} :
    (first >>= fun value => pure (convert value)) = .error error ↔ first = .error error := by
  cases first <;> simp [bind, Except.bind, pure, Except.pure]

theorem exists_eq_error_iff {outcome : Except ε α} :
    (∃ error, outcome = .error error) ↔ ¬∃ result, outcome = .ok result := by
  cases outcome <;> simp

/-- Two computations one after the other, neither of which looks at the other, succeed exactly if
both of them do. -/
theorem exists_bind_bind_iff {γ : Type} {first : Except ε α} {second : Except ε β}
    {combine : α → β → γ} :
    (∃ result, (do let a ← first; let b ← second; return combine a b) = .ok result) ↔
      (∃ a, first = .ok a) ∧ ∃ b, second = .ok b := by
  cases first <;> cases second <;> simp [bind, Except.bind, pure, Except.pure]

theorem mapM_map_eq_ok {write : β → α} {read : α → Except ε β}
    (reads : ∀ value, read (write value) = .ok value) (field : Option β) :
    (field.map write).mapM read = .ok field := by
  cases field with
  | none => rfl
  | some value =>
      change (read (write value)).map some = .ok (some value)
      rw [reads]
      rfl

theorem exists_of_mem_mapM_option {read : α → Except ε β} {field : Option α} {result : Option β}
    {value : β} (found : field.mapM read = .ok result) (member : value ∈ result) :
    ∃ item ∈ field, read item = .ok value := by
  cases field with
  | none =>
      cases found
      cases member
  | some item =>
      obtain ⟨_, first, rfl⟩ := map_eq_ok_iff.mp found
      cases member
      exact ⟨item, rfl, first⟩

theorem map_of_mapM_option {write : β → α} {read : α → Except ε β} {field : Option α}
    {result : Option β} (writes : ∀ item value, read item = .ok value → write value = item)
    (found : field.mapM read = .ok result) : result.map write = field := by
  cases field with
  | none =>
      cases found
      rfl
  | some item =>
      obtain ⟨value, first, rfl⟩ := map_eq_ok_iff.mp found
      rw [Option.map_some, writes item value first]

theorem mapM_option_eq_ok_of {read readOther : α → Except ε β} {field : Option α}
    {result : Option β}
    (alike : ∀ item value, read item = .ok value → readOther item = .ok value)
    (found : field.mapM read = .ok result) : field.mapM readOther = .ok result := by
  cases field with
  | none => exact found
  | some item =>
      obtain ⟨value, first, rfl⟩ := map_eq_ok_iff.mp found
      exact map_eq_ok_iff.mpr ⟨value, alike item value first, rfl⟩

theorem exists_mapM_option_iff {read : α → Except ε β} {field : Option α} :
    (∃ result, field.mapM read = .ok result) ↔ ∀ item ∈ field, ∃ value, read item = .ok value := by
  cases field with
  | none => exact iff_of_true ⟨none, rfl⟩ (by simp)
  | some item =>
      change (∃ result, (read item).map some = .ok result) ↔ _
      simp [map_eq_ok_iff]

theorem mapM_option_eq_error_iff {read : α → Except ε β} {field : Option α} {error : ε} :
    field.mapM read = .error error ↔ ∃ item ∈ field, read item = .error error := by
  cases field with
  | none => simp [pure, Except.pure]
  | some item =>
      change (read item).map some = .error error ↔ _
      cases outcome : read item <;> simp [Except.map, outcome]

/-- A traversal succeeds exactly if it does for each item, with the results in order. -/
theorem mapM_eq_ok_iff {read : α → Except ε β} {items : List α} {results : List β} :
    items.mapM read = .ok results ↔
      List.Forall₂ (fun item result => read item = .ok result) items results := by
  induction items generalizing results with
  | nil => cases results <;> simp [pure_eq_ok_iff]
  | cons item rest ih =>
      rw [List.mapM_cons, bind_eq_ok_iff]
      constructor
      · intro found
        obtain ⟨result, first, others⟩ := found
        obtain ⟨remaining, later, same⟩ := bind_eq_ok_iff.mp others
        cases pure_eq_ok_iff.mp same
        exact .cons first (ih.mp later)
      · intro pairs
        cases pairs with
        | cons first later =>
            exact ⟨_, first, bind_eq_ok_iff.mpr ⟨_, ih.mpr later, rfl⟩⟩

theorem exists_mapM_eq_ok_iff {read : α → Except ε β} {items : List α} :
    (∃ results, items.mapM read = .ok results) ↔
      ∀ item ∈ items, ∃ result, read item = .ok result := by
  simp only [mapM_eq_ok_iff]
  induction items with
  | nil => exact iff_of_true ⟨[], .nil⟩ (List.forall_mem_nil _)
  | cons item rest ih =>
      rw [List.forall_mem_cons, ← ih]
      constructor
      · rintro ⟨results, pairs⟩
        cases pairs with
        | cons first later => exact ⟨⟨_, first⟩, _, later⟩
      · rintro ⟨⟨result, first⟩, results, later⟩
        exact ⟨result :: results, .cons first later⟩

/-- A traversal fails exactly if an item does behind others that do not, and with the error of that
item. -/
theorem mapM_eq_error_iff {read : α → Except ε β} {items : List α} {error : ε} :
    items.mapM read = .error error ↔ ∃ front item back, items = front ++ item :: back ∧
      (∀ earlier ∈ front, ∃ result, read earlier = .ok result) ∧ read item = .error error := by
  induction items with
  | nil => simp [pure, Except.pure]
  | cons first rest ih =>
      rw [List.mapM_cons, bind_eq_error_iff]
      constructor
      · rintro (failed | ⟨result, found, later⟩)
        · exact ⟨[], first, rest, rfl, List.forall_mem_nil _, failed⟩
        · rcases bind_eq_error_iff.mp later with failed | ⟨results, _, impossible⟩
          · obtain ⟨front, item, back, same, earlier, last⟩ := ih.mp failed
            refine ⟨first :: front, item, back, by rw [same, List.cons_append], ?_, last⟩
            exact List.forall_mem_cons.mpr ⟨⟨result, found⟩, earlier⟩
          · cases impossible
      · rintro ⟨front, item, back, same, earlier, failed⟩
        cases front with
        | nil =>
            obtain ⟨rfl, rfl⟩ := List.cons.inj same
            exact .inl failed
        | cons head front =>
            obtain ⟨rfl, rfl⟩ := List.cons.inj same
            obtain ⟨⟨result, found⟩, others⟩ := List.forall_mem_cons.mp earlier
            have behind := ih.mpr ⟨front, item, back, rfl, others, failed⟩
            exact .inr ⟨result, found, bind_eq_error_iff.mpr (.inl behind)⟩

theorem exists_mem_of_forall₂ {related : α → β → Prop} {items : List α} {results : List β}
    {result : β} (pairs : List.Forall₂ related items results) (member : result ∈ results) :
    ∃ item ∈ items, related item result := by
  induction pairs with
  | nil => cases member
  | cons first later ih =>
      rcases List.mem_cons.mp member with rfl | behind
      · exact ⟨_, List.mem_cons_self, first⟩
      · obtain ⟨item, among, relates⟩ := ih behind
        exact ⟨item, List.mem_cons_of_mem _ among, relates⟩

theorem exists_of_mem_mapM {read : α → Except ε β} {items : List α} {results : List β} {result : β}
    (found : items.mapM read = .ok results) (member : result ∈ results) :
    ∃ item ∈ items, read item = .ok result := by
  obtain ⟨item, among, readItem⟩ := exists_mem_of_forall₂ (mapM_eq_ok_iff.mp found) member
  exact ⟨item, among, readItem⟩

theorem mapM_append_eq_ok {read : α → Except ε β} {front back : List α} {first second : List β}
    (readFront : front.mapM read = .ok first) (readBack : back.mapM read = .ok second) :
    (front ++ back).mapM read = .ok (first ++ second) :=
  mapM_eq_ok_iff.mpr (List.rel_append (mapM_eq_ok_iff.mp readFront) (mapM_eq_ok_iff.mp readBack))

theorem mapM_eq_ok_of_forall₂ {γ : Type} {read : α → Except ε β} {readOther : γ → Except δ β}
    {others : List γ} {items : List α} {results : List β}
    (alike : List.Forall₂ (fun other item => ∀ result, read item = .ok result →
      readOther other = .ok result) others items)
    (found : items.mapM read = .ok results) : others.mapM readOther = .ok results := by
  rw [mapM_eq_ok_iff] at found ⊢
  induction alike generalizing results with
  | nil =>
      cases found
      exact .nil
  | cons first later ih =>
      cases found with
      | cons head tail => exact .cons (first _ head) (ih tail)

theorem exists_mapM_related {γ : Type} {related : β → γ → Prop} {read : α → Except ε β}
    {readOther : α → Except δ γ} {items : List α} {results : List β}
    (alike : ∀ item ∈ items, ∀ result, read item = .ok result →
      ∃ other, readOther item = .ok other ∧ related result other)
    (found : items.mapM read = .ok results) :
    ∃ others, items.mapM readOther = .ok others ∧ List.Forall₂ related results others := by
  have pairs := mapM_eq_ok_iff.mp found
  clear found
  induction pairs with
  | nil => exact ⟨[], rfl, .nil⟩
  | cons first later ih =>
      obtain ⟨alikeFirst, alikeRest⟩ := List.forall_mem_cons.mp alike
      obtain ⟨other, readFirst, relates⟩ := alikeFirst _ first
      obtain ⟨others, readRest, relatesRest⟩ := ih alikeRest
      refine ⟨other :: others, ?_, .cons relates relatesRest⟩
      exact mapM_eq_ok_iff.mpr (.cons readFirst (mapM_eq_ok_iff.mp readRest))

end Outcome

end Versioning
