/-!
Computations that may fail after some events have already been seen.
-/

namespace SceneGraph

/-- A result or a failure, and the events on the way to it. -/
structure Traced (ε φ α : Type) where
  events : List ε
  result : Except φ α

namespace Traced

variable {ε ε' φ φ' α β : Type}

instance : Monad (Traced ε φ) where
  pure a := ⟨[], .ok a⟩
  bind x f :=
    match x.result with
    | .ok a => ⟨x.events ++ (f a).events, (f a).result⟩
    | .error e => ⟨x.events, .error e⟩

/-- Reports one event. -/
def report (e : ε) : Traced ε φ Unit :=
  ⟨[e], .ok ()⟩

/-- Fails without an event. -/
def fail (e : φ) : Traced ε φ α :=
  ⟨[], .error e⟩

/-- A computation that sees no events. -/
def ofExcept (x : Except φ α) : Traced ε φ α :=
  ⟨[], x⟩

/-- Renames events and failures. -/
def rename (event : ε → ε') (failure : φ → φ') (x : Traced ε φ α) : Traced ε' φ' α :=
  ⟨x.events.map event, x.result.mapError failure⟩

@[ext] theorem ext {x y : Traced ε φ α} (events : x.events = y.events)
    (result : x.result = y.result) : x = y := by
  cases x
  cases y
  simp_all

@[simp] theorem result_pure (a : α) : (pure a : Traced ε φ α).result = .ok a :=
  rfl

@[simp] theorem events_pure (a : α) : (pure a : Traced ε φ α).events = [] :=
  rfl

@[simp] theorem result_report (e : ε) : (report e : Traced ε φ Unit).result = .ok () :=
  rfl

@[simp] theorem result_fail (e : φ) : (fail e : Traced ε φ α).result = .error e :=
  rfl

/-- Events never influence a result. -/
@[simp] theorem result_bind (x : Traced ε φ α) (f : α → Traced ε φ β) :
    (x >>= f).result = x.result.bind fun a => (f a).result := by
  cases h : x.result <;> simp [bind, h, Except.bind]

/-- Events are seen in order, and none after a failure. -/
theorem events_bind (x : Traced ε φ α) (f : α → Traced ε φ β) :
    (x >>= f).events =
      x.events ++ (match x.result with
        | .ok a => (f a).events
        | .error _ => []) := by
  cases h : x.result <;> simp [bind, h]

theorem bind_events_assoc {γ : Type} (x : Traced ε φ α) (f : α → Traced ε φ β)
    (g : β → Traced ε φ γ) :
    (x >>= f >>= g).events = (x >>= fun a => f a >>= g).events := by
  cases h : x.result with
  | error e =>
    simp [events_bind, h]
    rfl
  | ok a => simp [events_bind, h, Except.bind, List.append_assoc]

instance : LawfulMonad (Traced ε φ) :=
  LawfulMonad.mk' (Traced ε φ)
    (by
      intro α x
      cases x with
      | mk events result => cases result <;> exact ext (by simp [Functor.map]) rfl)
    (by
      intro α β a f
      simp [bind, pure])
    (by
      intro α β γ x f g
      apply ext (bind_events_assoc x f g)
      cases h : x.result <;> simp [h, Except.bind])

end Traced

end SceneGraph
