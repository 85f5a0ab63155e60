/-
Computations that report events and may meet a fault.

The events stand beside the result, not inside it: a fault keeps the events reported before it,
and the result of a sequence is the sequence of the results (`result_bind`), so that what is
computed can be reasoned about without the log.
-/
import ModelCount.Event

namespace ModelCount

/-- a result, or the fault that ended the work, with the events reported on the way -/
structure Traced (α : Type) where
  events : List Event
  result : Except Fault α

namespace Traced

instance : Monad Traced where
  pure a := ⟨[], .ok a⟩
  bind x f :=
    match x with
    | ⟨events, .ok a⟩ => match f a with
      | ⟨more, result⟩ => ⟨events ++ more, result⟩
    | ⟨events, .error fault⟩ => ⟨events, .error fault⟩

/-- work that may meet a fault and reports nothing -/
def quiet {α : Type} (result : Except Fault α) : Traced α := ⟨[], result⟩

instance : MonadLift (Except Fault) Traced := ⟨quiet⟩

def emit (e : Event) : Traced Unit := ⟨[e], .ok ()⟩

/-! ## The result of a sequence -/

@[simp] theorem result_pure {α : Type} (a : α) : (pure a : Traced α).result = .ok a := rfl

@[simp] theorem result_bind {α β : Type} (x : Traced α) (f : α → Traced β) :
    (x >>= f).result = x.result >>= fun a => (f a).result := by
  obtain ⟨events, result⟩ := x
  cases result <;> rfl

@[simp] theorem result_quiet {α : Type} (r : Except Fault α) : (quiet r).result = r := rfl

@[simp] theorem result_lift {α : Type} (r : Except Fault α) :
    (liftM r : Traced α).result = r := rfl

@[simp] theorem result_emit (e : Event) : (emit e).result = .ok () := rfl

end Traced

end ModelCount
