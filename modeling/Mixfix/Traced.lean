import Mixfix.Event
import Mixfix.Problem

/-!
# Traced computations

A computation that reports events and ends with a value or an error. The events reported before an
error are kept.

* `Traced.bind_result`: the result of a sequence is that of its last part, if the others succeed.
* `Traced.bind_eq_ok`: a sequence succeeds exactly if both its parts do.
* `Traced.bind_eq_error`: it fails exactly if the first part does, or the second after it.
* `Traced.bind_events`: the events of a sequence are those of its parts, in order.
-/

namespace Mixfix

/-- The events of a computation, in order, and how it ended. -/
structure Traced (ε α : Type) where
  events : List Event
  result : Except ε α

namespace Traced

variable {ε ε' α β : Type}

/-- A value without events. -/
protected def pure (a : α) : Traced ε α := ⟨[], .ok a⟩

/-- The second computation runs only if the first one succeeds. -/
protected def bind (x : Traced ε α) (f : α → Traced ε β) : Traced ε β :=
  match x.result with
  | .error e => ⟨x.events, .error e⟩
  | .ok a =>
    let y := f a
    ⟨x.events ++ y.events, y.result⟩

instance : Monad (Traced ε) where
  pure := Traced.pure
  bind := Traced.bind

/-- Ends with an error. -/
def fail (e : ε) : Traced ε α := ⟨[], .error e⟩

instance : MonadExceptOf ε (Traced ε) where
  throw := Traced.fail
  tryCatch x handle :=
    match x.result with
    | .ok _ => x
    | .error e =>
      let y := handle e
      ⟨x.events ++ y.events, y.result⟩

/-- Reports one event. -/
def emit (e : Event) : Traced ε Unit := ⟨[e], .ok ()⟩

/-- A result without events. -/
def ofExcept (r : Except ε α) : Traced ε α := ⟨[], r⟩

/-- Changes the error, if there is one. -/
def mapError (f : ε → ε') (x : Traced ε α) : Traced ε' α := ⟨x.events, x.result.mapError f⟩

instance : MonadLift (Except ε) (Traced ε) := ⟨Traced.ofExcept⟩

instance : MonadLift (Except Fault) (Traced Failure) :=
  ⟨fun r => .ofExcept (r.mapError Failure.fault)⟩

instance : MonadLift (Except Problem) (Traced Failure) :=
  ⟨fun r => .ofExcept (r.mapError Failure.problem)⟩

instance : MonadLift (Traced Fault) (Traced Failure) := ⟨Traced.mapError Failure.fault⟩

/-- Turns a problem into a value; a fault stays an error. -/
def catchProblem (x : Traced Failure α) : Traced Fault (Except Problem α) :=
  ⟨x.events,
    match x.result with
    | .ok a => .ok (.ok a)
    | .error (.problem p) => .ok (.error p)
    | .error (.fault f) => .error f⟩

@[simp] theorem pure_result (a : α) : (pure a : Traced ε α).result = .ok a := rfl

@[simp] theorem pure_events (a : α) : (pure a : Traced ε α).events = [] := rfl

@[simp] theorem emit_result (e : Event) : (emit e : Traced ε Unit).result = .ok () := rfl

@[simp] theorem emit_events (e : Event) : (emit e : Traced ε Unit).events = [e] := rfl

@[simp] theorem ofExcept_result (r : Except ε α) : (ofExcept r).result = r := rfl

@[simp] theorem throw_result (e : ε) : (throw e : Traced ε α).result = .error e := rfl

theorem bind_result (x : Traced ε α) (f : α → Traced ε β) :
    (x >>= f).result = x.result >>= fun a => (f a).result := by
  show (Traced.bind x f).result = _
  unfold Traced.bind
  cases x.result <;> rfl

/-- After a first part that succeeds, the result is that of the second. -/
theorem bind_of_ok {x : Traced ε α} {a : α} (h : x.result = .ok a) (f : α → Traced ε β) :
    (x >>= f).result = (f a).result := by
  rw [bind_result, h]
  rfl

/-- Sequences whose second parts agree after the first part are equal. -/
theorem bind_congr_of_ok {x : Traced ε α} {f g : α → Traced ε β}
    (h : ∀ a, x.result = .ok a → f a = g a) : x >>= f = x >>= g := by
  show Traced.bind x f = Traced.bind x g
  unfold Traced.bind
  cases hx : x.result with
  | error e => rfl
  | ok a =>
    dsimp only
    rw [h a hx]

theorem lift_problem_eq_ok {x : Except Problem α} {a : α} :
    (liftM x : Traced Failure α).result = .ok a ↔ x = .ok a := by
  cases x with
  | error e => exact ⟨fun h => (nomatch h), fun h => nomatch h⟩
  | ok b => exact ⟨fun h => by cases h; rfl, fun h => by cases h; rfl⟩

theorem bind_eq_ok {x : Traced ε α} {f : α → Traced ε β} {b : β} :
    (x >>= f).result = .ok b ↔ ∃ a, x.result = .ok a ∧ (f a).result = .ok b := by
  rw [bind_result]
  cases x.result with
  | error e => exact ⟨fun h => (nomatch h), fun ⟨_, h, _⟩ => nomatch h⟩
  | ok a => exact ⟨fun h => ⟨a, rfl, h⟩, fun ⟨_, h, h'⟩ => by cases h; exact h'⟩

/-- A sequence succeeds if its first part does and its second part after it. -/
theorem exists_bind {x : Traced ε α} {f : α → Traced ε β} {a : α} (hx : x.result = .ok a)
    (hf : ∃ b, (f a).result = .ok b) : ∃ b, (x >>= f).result = .ok b := by
  obtain ⟨b, hb⟩ := hf
  exact ⟨b, bind_eq_ok.2 ⟨a, hx, hb⟩⟩

theorem bind_eq_error {x : Traced ε α} {f : α → Traced ε β} {e : ε} :
    (x >>= f).result = .error e ↔
      x.result = .error e ∨ ∃ a, x.result = .ok a ∧ (f a).result = .error e := by
  rw [bind_result]
  cases x.result with
  | error e' =>
    refine ⟨fun h => .inl (by cases h; rfl), fun h => ?_⟩
    rcases h with h | ⟨_, h, -⟩
    · cases h
      rfl
    · cases h
  | ok a =>
    refine ⟨fun h => .inr ⟨a, rfl, h⟩, fun h => ?_⟩
    rcases h with h | ⟨_, h, h'⟩
    · cases h
    · cases h
      exact h'

theorem bind_events {x : Traced ε α} {a : α} (h : x.result = .ok a) (f : α → Traced ε β) :
    (x >>= f).events = x.events ++ (f a).events := by
  show (Traced.bind x f).events = _
  unfold Traced.bind
  rw [h]

/-- An event of a sequence is one of its first part, or of the second if that runs. -/
theorem mem_bind_events {x : Traced ε α} {f : α → Traced ε β} {e : Event}
    (h : e ∈ (x >>= f).events) :
    e ∈ x.events ∨ ∃ a, x.result = .ok a ∧ e ∈ (f a).events := by
  cases hx : x.result with
  | error e' =>
    have hbind : (x >>= f).events = x.events := by
      show (Traced.bind x f).events = _
      unfold Traced.bind
      rw [hx]
    exact .inl (hbind ▸ h)
  | ok a =>
    rw [bind_events hx, List.mem_append] at h
    exact h.imp_right fun h => ⟨a, rfl, h⟩

end Traced

end Mixfix
