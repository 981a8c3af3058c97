import Mathlib.Tactic.Common

/-!
# Handler programs: state, ordered effects and run-time panics

An event handler of a server reads and writes the server's memory, performs
effects on the outside world in a definite order, and may panic. `Prog`
keeps all three apart:

* the memory `σ` is threaded through;
* the effects `ε` are collected in the order in which they are performed, so
  a crash in the middle of a handler is a *prefix* of this list;
* `none` is a run-time panic. The effects performed before it stay performed.

The run lemmas below are the only way in which the definitions are used.
-/

namespace DistStudy

/-- A handler over memory `σ` with effects `ε` that returns an `α`, or panics. -/
def Prog (σ ε α : Type) : Type := σ → List ε × Option (α × σ)

namespace Prog

variable {σ ε α β : Type}

/-- Run `m` from `s` and then `f` on its result; a panic of `m` ends the run. -/
def bind (m : Prog σ ε α) (f : α → Prog σ ε β) : Prog σ ε β := fun s =>
  match m s with
  | (es, none) => (es, none)
  | (es, some (a, s')) => (es ++ (f a s').1, (f a s').2)

instance : Monad (Prog σ ε) where
  pure a := fun s => ([], some (a, s))
  bind := bind

/-- The current memory. -/
def get : Prog σ ε σ := fun s => ([], some (s, s))

/-- Update the memory. -/
def modify (f : σ → σ) : Prog σ ε Unit := fun s => ([], some ((), f s))

/-- Perform one effect. -/
def emit (e : ε) : Prog σ ε Unit := fun s => ([e], some ((), s))

/-- Perform the effect that the current memory determines. -/
def emitWith (f : σ → ε) : Prog σ ε Unit := fun s => ([f s], some ((), s))

/-- The value of a partial operation; the program panics where it is undefined. -/
def orPanic (o : Option α) : Prog σ ε α := fun s => ([], o.map fun a => (a, s))

@[simp] theorem pure_run (a : α) (s : σ) :
    (Pure.pure a : Prog σ ε α) s = ([], some (a, s)) := rfl

@[simp] theorem get_run (s : σ) : (get : Prog σ ε σ) s = ([], some (s, s)) := rfl

@[simp] theorem modify_run (f : σ → σ) (s : σ) :
    (modify f : Prog σ ε Unit) s = ([], some ((), f s)) := rfl

@[simp] theorem emit_run (e : ε) (s : σ) : emit e s = ([e], some ((), s)) := rfl

@[simp] theorem emitWith_run (f : σ → ε) (s : σ) :
    emitWith f s = ([f s], some ((), s)) := rfl

@[simp] theorem orPanic_some (a : α) (s : σ) :
    (orPanic (some a) : Prog σ ε α) s = ([], some (a, s)) := rfl

@[simp] theorem orPanic_none (s : σ) :
    (orPanic none : Prog σ ε α) s = ([], none) := rfl

theorem bind_run (m : Prog σ ε α) (f : α → Prog σ ε β) (s : σ) :
    (m >>= f) s = match m s with
      | (es, none) => (es, none)
      | (es, some (a, s')) => (es ++ (f a s').1, (f a s').2) := rfl

@[simp] theorem get_bind_run (f : σ → Prog σ ε β) (s : σ) : (get >>= f) s = f s s := rfl

@[simp] theorem modify_bind_run (g : σ → σ) (f : Unit → Prog σ ε β) (s : σ) :
    (modify g >>= f) s = f () (g s) := rfl

@[simp] theorem emit_bind_run (e : ε) (f : Unit → Prog σ ε β) (s : σ) :
    (emit e >>= f) s = (e :: (f () s).1, (f () s).2) := rfl

@[simp] theorem orPanic_some_bind_run (a : α) (f : α → Prog σ ε β) (s : σ) :
    (orPanic (some a) >>= f) s = f a s := rfl

@[simp] theorem orPanic_none_bind_run (f : α → Prog σ ε β) (s : σ) :
    (orPanic none >>= f) s = ([], none) := rfl

/-- Sequencing after a run that returned. -/
theorem bind_run_some {m : Prog σ ε α} {s s' : σ} {es : List ε} {a : α}
    (h : m s = (es, some (a, s'))) (f : α → Prog σ ε β) :
    (m >>= f) s = (es ++ (f a s').1, (f a s').2) := by
  rw [bind_run, h]

/-- The result of a run is mapped. -/
theorem bind_pure_run (m : Prog σ ε α) (f : α → β) (s : σ) :
    (m >>= fun a => Pure.pure (f a)) s = ((m s).1, (m s).2.map fun r => (f r.1, r.2)) := by
  rw [bind_run]
  rcases m s with ⟨es, _ | ⟨a, s'⟩⟩ <;> simp

end Prog

end DistStudy
