-- Byte strings, what stops a run of the code (a failed assertion, a throw, or
-- a read outside of a buffer), and calls that change a state and may throw.
import Mathlib

namespace quarkdb

/-- A `std::string` or a `std::string_view`: any bytes, of any length. -/
abbrev Bytes := List UInt8

instance lawfulBEqBytes : LawfulBEq Bytes := inferInstance

/-- The bytes of a literal of the source. -/
def ascii (s : String) : Bytes := s.toList.map fun c => c.toNat.toUInt8

/-- Why a call does not return. -/
inductive Fault
  /-- `qdb_assert`, which throws with the text of its condition. -/
  | assertion (condition : String)
  /-- `qdb_throw`, with the literal part of its message. -/
  | thrown (message : String)
  /-- A read or a write outside of a buffer: the behaviour is undefined. -/
  | outOfBounds
  deriving Repr, DecidableEq

/-- `qdb_assert(condition)`. -/
def qdbAssert (holds : Bool) (condition : String) : Except Fault Unit :=
  if holds then .ok () else .error (.assertion condition)

@[simp] theorem qdbAssert_true (condition : String) : qdbAssert true condition = .ok () := rfl

@[simp] theorem qdbAssert_false (condition : String) :
    qdbAssert false condition = .error (.assertion condition) := rfl

/-- `std::string_view::operator[]`: past the end there is no character to read. -/
def charAt (s : Bytes) (i : Nat) : Except Fault UInt8 :=
  match s[i]? with
  | some c => .ok c
  | none => .error .outOfBounds

/-- The byte '#'. -/
def hash : UInt8 := 35

/-- The byte '|'. -/
def bar : UInt8 := 124

theorem bar_ne_hash : bar ≠ hash := by decide

/-! ## Calls -/

/-- A call on a state: it returns or throws, and leaves a state. What it did
before a throw stays done. -/
abbrev Call (σ : Type) := ExceptT Fault (StateM σ)

namespace Call

variable {σ τ α β : Type}

/-- What a call does to a state. -/
def on (call : Call σ α) (s : σ) : Except Fault α × σ := StateT.run (ExceptT.run call) s

/-- A call on a part of a state. -/
def within (get : σ → τ) (put : σ → τ → σ) (call : Call τ α) : Call σ α :=
  ExceptT.mk fun s => ((call.on (get s)).1, put s (call.on (get s)).2)

@[simp] theorem on_pure (a : α) (s : σ) : Call.on (pure a) s = (.ok a, s) := rfl

@[simp] theorem on_get (s : σ) : Call.on get s = (.ok s, s) := rfl

@[simp] theorem on_set (s s' : σ) : Call.on (set s') s = (.ok (), s') := rfl

@[simp] theorem on_modify (f : σ → σ) (s : σ) : Call.on (modify f) s = (.ok (), f s) := rfl

@[simp] theorem on_throw (e : Fault) (s : σ) :
    Call.on (throw e : Call σ α) s = (.error e, s) := rfl

@[simp] theorem on_within (get : σ → τ) (put : σ → τ → σ) (call : Call τ α) (s : σ) :
    Call.on (within get put call) s = ((call.on (get s)).1, put s (call.on (get s)).2) := rfl

@[simp] theorem on_lift (x : Except Fault α) (s : σ) : Call.on (liftM x) s = (x, s) := by
  cases x <;> rfl

@[simp] theorem on_map (f : α → β) (call : Call σ α) (s : σ) :
    Call.on (f <$> call) s = ((call.on s).1.map f, (call.on s).2) := by
  rcases h : call.on s with ⟨r, s'⟩
  cases r <;> simp_all [Call.on, Functor.map, ExceptT.map, ExceptT.run, ExceptT.mk,
    StateT.bind, StateT.run, bind, pure, StateT.pure, Except.map]

@[simp] theorem on_ite (p : Prop) [Decidable p] (a b : Call σ α) (s : σ) :
    Call.on (if p then a else b) s = if p then a.on s else b.on s := by
  split <;> rfl

/-- One call after another: a throw ends the sequence, and the state stays as
the call that threw left it. -/
@[simp] theorem on_bind (call : Call σ α) (next : α → Call σ β) (s : σ) :
    Call.on (call >>= next) s =
      match call.on s with
      | (.ok a, s') => (next a).on s'
      | (.error e, s') => (.error e, s') := by
  rcases h : call.on s with ⟨r, s'⟩
  cases r <;> simp_all [Call.on, bind, ExceptT.bind, ExceptT.run, ExceptT.mk, StateT.bind,
    StateT.run, ExceptT.bindCont, pure, StateT.pure]

end Call

end quarkdb
