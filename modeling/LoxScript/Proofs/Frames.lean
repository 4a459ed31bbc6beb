import LoxScript.Machine

/-!
What the operations of a store do to its frames and to the fields of its instances.
-/
namespace LoxScript.Store

variable (s : Store)

@[simp]
theorem size_define (a : Address) (name : String) (v : Value) :
    (s.define a name v).frames.size = s.frames.size := by
  simp [define]

theorem frame_define_self {a : Address} (h : a < s.frames.size) (name : String) (v : Value) :
    (s.define a name v).frame a = (s.frame a).set name v := by
  simp [define, frame, h, Array.getElem_modify]

theorem frame_define_of_ne {a b : Address} (h : b ≠ a) (name : String) (v : Value) :
    (s.define a name v).frame b = s.frame b := by
  simp [define, frame, Array.getElem?_modify, h.symm]

theorem frame_of_size_le {a : Address} (h : s.frames.size ≤ a) : s.frame a = [] := by
  simp [frame, h]

/-- What a frame binds after a definition, it bound before or it was given. -/
theorem get?_frame_define {a b : Address} {name other : String} {v w : Value}
    (h : ((s.define a name v).frame b).get? other = some w) :
    (b = a ∧ other = name ∧ w = v) ∨ (s.frame b).get? other = some w := by
  by_cases hb : b = a
  · subst hb
    by_cases hs : b < s.frames.size
    · rw [frame_define_self s hs, Bindings.get?_set] at h
      by_cases ho : other = name
      · simp only [ho, if_true, Option.some.injEq] at h
        exact .inl ⟨rfl, ho, h.symm⟩
      · simp only [ho, if_false] at h
        exact .inr h
    · rw [frame_of_size_le _ (by simpa using Nat.not_lt.mp hs)] at h
      cases h
  · rw [frame_define_of_ne s hb] at h
    exact .inr h

theorem has_frame_define {a b : Address} {name other : String} {v : Value}
    (h : ((s.define a name v).frame b).has other) :
    (b = a ∧ other = name) ∨ (s.frame b).has other := by
  obtain ⟨w, hw⟩ := (Bindings.has_iff _ _).mp h
  rcases get?_frame_define s hw with ⟨hb, ho, -⟩ | hold
  · exact .inl ⟨hb, ho⟩
  · exact .inr ((Bindings.has_iff _ _).mpr ⟨w, hold⟩)

theorem has_frame_define_of_has {b : Address} {other : String} (h : (s.frame b).has other)
    (a : Address) (name : String) (v : Value) : ((s.define a name v).frame b).has other := by
  by_cases hb : b = a
  · subst hb
    by_cases hs : b < s.frames.size
    · rw [frame_define_self s hs, Bindings.has_set]
      exact .inr h
    · rw [frame_of_size_le s (Nat.not_lt.mp hs)] at h
      cases h
  · rwa [frame_define_of_ne s hb]

theorem frame_addFrame_self (b : Bindings Value) :
    (s.addFrame b).2.frame s.frames.size = b := by
  simp [addFrame, frame]

theorem frame_addFrame_of_ne {a : Address} (h : a ≠ s.frames.size) (b : Bindings Value) :
    (s.addFrame b).2.frame a = s.frame a := by
  simp [addFrame, frame, Array.getElem?_push, h]

theorem get?_frame_addFrame {a : Address} {b : Bindings Value} {name : String} {v : Value}
    (h : ((s.addFrame b).2.frame a).get? name = some v) :
    (a = s.frames.size ∧ b.get? name = some v) ∨ (s.frame a).get? name = some v := by
  by_cases ha : a = s.frames.size
  · subst ha
    rw [frame_addFrame_self] at h
    exact .inl ⟨rfl, h⟩
  · rw [frame_addFrame_of_ne s ha] at h
    exact .inr h

theorem fields_addObject (owner : Class) (o : Object) :
    (s.addObject owner).2.fields o = s.fields o := by
  by_cases h : o.identity = s.objects.size <;> simp [addObject, fields, Array.getElem?_push, h]

theorem get?_fields_setField {o q : Object} {name other : String} {v w : Value}
    (h : ((s.setField o name v).fields q).get? other = some w) :
    w = v ∨ (s.fields q).get? other = some w := by
  simp only [setField, fields, Array.getElem?_modify] at h
  split at h
  · cases hq : s.objects[q.identity]? with
    | none => simp [hq, Bindings.get?] at h
    | some b =>
      simp only [hq, Option.map_some, Option.getD_some, Bindings.get?_set] at h
      split at h
      · exact .inl (Option.some.inj h).symm
      · exact .inr (by simpa [fields, hq] using h)
  · exact .inr h

end LoxScript.Store
