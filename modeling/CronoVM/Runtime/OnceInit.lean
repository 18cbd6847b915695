import Mathlib.Logic.Function.Basic
import CronoVM.Isa

/-!
# One-time initialisation

`__cxa_guard_acquire`, `__cxa_guard_release` and `__cxa_guard_abort` of `cvm_cxxrt.cpp`, and `std::__call_once` of `cvm_cxxstl.cpp`. Of a
guard only its first byte counts, of a `once_flag` its one word; both are named by their address.
-/

namespace CronoVM

/-- The memory of the guards and the flags. -/
structure OnceMem where
  guardByte : Word → Byte
  flagWord : Word → Word

/-- `__cxa_guard_acquire` -/
def cxaGuardAcquire (g : Word) (m : OnceMem) : Bool := m.guardByte g == 0#8

/-- `__cxa_guard_release` -/
def cxaGuardRelease (g : Word) (m : OnceMem) : OnceMem := { m with guardByte := Function.update m.guardByte g 1#8 }

/-- `__cxa_guard_abort` -/
def cxaGuardAbort (_g : Word) (m : OnceMem) : OnceMem := m

/-- `__call_once` up to the call of `func`: whether it makes the call. -/
def callOnceBegin (flag : Word) (m : OnceMem) : Bool := !(m.flagWord flag == 0xFFFFFFFF#32)

/-- `__call_once` after the call of `func`. -/
def callOnceEnd (flag : Word) (m : OnceMem) : OnceMem := { m with flagWord := Function.update m.flagWord flag 0xFFFFFFFF#32 }

/-- What an initialisation is guarded by. -/
inductive OnceObject where
  | guard (g : Word)
  | flag (flag : Word)
  deriving DecidableEq

/-- Whether a coroutine that reaches the object runs the initialiser. -/
def OnceObject.enter : OnceObject → OnceMem → Bool
  | .guard g => cxaGuardAcquire g
  | .flag f => callOnceBegin f

/-- The end of an initialiser that returns. -/
def OnceObject.leave : OnceObject → OnceMem → OnceMem
  | .guard g => cxaGuardRelease g
  | .flag f => callOnceEnd f

/-- The end of an initialiser that throws: the landing pad of a static variable calls `__cxa_guard_abort`, and the exception passes
through `__call_once`. -/
def OnceObject.unwind : OnceObject → OnceMem → OnceMem
  | .guard g => cxaGuardAbort g
  | .flag _ => id

/-! ## Coroutines -/

/-- The guards and flags, the running coroutine, and the objects whose initialisers each coroutine is in, the innermost first. -/
structure OnceState (κ : Type) where
  mem : OnceMem
  current : κ
  inside : κ → List OnceObject

variable {κ : Type} [DecidableEq κ]

def OnceState.setInside (w : OnceState κ) (mem : OnceMem) (objects : List OnceObject) : OnceState κ :=
  { w with mem := mem, inside := Function.update w.inside w.current objects }

/-- What the running coroutine does: it swaps to another one, reaches a guarded initialisation, or ends the innermost initialiser it is
in, with a return or with a throw. -/
inductive OnceEvent (κ : Type) where
  | swap (c : κ)
  | reach (x : OnceObject)
  | finish
  | throw

/-- What becomes of the initialisations. -/
inductive OnceEffect where
  | silent
  | starts (x : OnceObject)
  | passes (x : OnceObject)
  | completes (x : OnceObject)
  | fails (x : OnceObject)
  deriving DecidableEq

/-- A step of one of the coroutines. A swap does not touch the guards and the flags. -/
inductive OnceStep : OnceEvent κ → OnceState κ → OnceEffect → OnceState κ → Prop
  | swap {w : OnceState κ} (c : κ) : OnceStep (.swap c) w .silent { w with current := c }
  | start {w : OnceState κ} {x : OnceObject} : x.enter w.mem = true →
      OnceStep (.reach x) w (.starts x) (w.setInside w.mem (x :: w.inside w.current))
  | pass {w : OnceState κ} {x : OnceObject} : x.enter w.mem = false → OnceStep (.reach x) w (.passes x) w
  | finish {w : OnceState κ} {x : OnceObject} {rest : List OnceObject} : w.inside w.current = x :: rest →
      OnceStep .finish w (.completes x) (w.setInside (x.leave w.mem) rest)
  | throw {w : OnceState κ} {x : OnceObject} {rest : List OnceObject} : w.inside w.current = x :: rest →
      OnceStep .throw w (.fails x) (w.setInside (x.unwind w.mem) rest)

/-- No initialiser has run yet. -/
def OnceState.Fresh (w : OnceState κ) : Prop := (∀ x : OnceObject, x.enter w.mem = true) ∧ ∀ c, w.inside c = []

/-- The runs whose steps all meet a condition on the state before them, with what became of the initialisations, the last first. -/
inductive OnceRun (P : OnceState κ → OnceEvent κ → Prop) : List OnceEffect → OnceState κ → Prop
  | start {w : OnceState κ} : w.Fresh → OnceRun P [] w
  | step {past : List OnceEffect} {w w' : OnceState κ} {event : OnceEvent κ} {effect : OnceEffect} : OnceRun P past w → P w event →
      OnceStep event w effect w' → OnceRun P (effect :: past) w'

end CronoVM
