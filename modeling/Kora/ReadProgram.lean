/-
Programs that read.

A program that depends on a changing system only through queries is a tree: it is done, or
it asks a query and goes on with the answer.

* `Asks` — a condition on each query, given the answers before it;
* `interleave_eq_eval` — if the system answers what the program may ask as a fixed
  assignment does, running while it goes on gives the same result.
-/
import Kora.Run

/-- A program with queries in `Q`, where `q` is answered in `A q`. -/
inductive ReadProgram (Q : Type) (A : Q → Type) (α : Type) where
  | done (a : α)
  | read (q : Q) (next : A q → ReadProgram Q A α)

namespace ReadProgram

variable {Q Q' : Type} {A : Q → Type} {A' : Q' → Type} {α β : Type}

protected def bind : ReadProgram Q A α → (α → ReadProgram Q A β) → ReadProgram Q A β
  | done a, f => f a
  | read q next, f => read q fun a => (next a).bind f

instance : Monad (ReadProgram Q A) where
  pure := done
  bind := ReadProgram.bind

/-- The program that asks one query and returns its answer. -/
def ask (q : Q) : ReadProgram Q A (A q) := read q done

/-- The result of a program against fixed answers. -/
def eval (answer : (q : Q) → A q) : ReadProgram Q A α → α
  | done a => a
  | read q next => eval answer (next (answer q))

/-- Replace each query by a program. -/
def interpret (handler : (q : Q) → ReadProgram Q' A' (A q)) :
    ReadProgram Q A α → ReadProgram Q' A' α
  | done a => done a
  | read q next => handler q >>= fun a => interpret handler (next a)

@[simp] theorem eval_done (answer : (q : Q) → A q) (a : α) :
    eval answer (done a : ReadProgram Q A α) = a := rfl

@[simp] theorem eval_pure (answer : (q : Q) → A q) (a : α) :
    eval answer (pure a : ReadProgram Q A α) = a := rfl

@[simp] theorem eval_bind (answer : (q : Q) → A q) (p : ReadProgram Q A α)
    (f : α → ReadProgram Q A β) : eval answer (p >>= f) = eval answer (f (eval answer p)) := by
  induction p with
  | done a => rfl
  | read q next ih => exact ih (answer q)

/-! ### Running while the system goes on -/

variable {σ ι : Type}

/-- Before query `t` the system takes the inputs `before t`, and answers in its state then. -/
def interleave (step : σ → ι → σ) (answer : σ → (q : Q) → A q) (before : ℕ → List ι) :
    ℕ → σ → ReadProgram Q A α → α
  | _, _, done a => a
  | t, s, read q next =>
    interleave step answer before (t + 1) ((before t).foldl step s)
      (next (answer ((before t).foldl step s) q))

/-- Every query meets a condition on it and the answers before, and so does the result. -/
def Asks (may : List (Σ q, A q) → Q → Prop) (post : List (Σ q, A q) → α → Prop) :
    List (Σ q, A q) → ReadProgram Q A α → Prop
  | past, done a => post past a
  | past, read q next => may past q ∧ ∀ a, Asks may post (⟨q, a⟩ :: past) (next a)

namespace Asks

variable {may : List (Σ q, A q) → Q → Prop} {past : List (Σ q, A q)} {p : ReadProgram Q A α}

theorem bind {post : List (Σ q, A q) → β → Prop} {f : α → ReadProgram Q A β}
    (h : p.Asks may (fun past a => (f a).Asks may post past) past) :
    (p >>= f).Asks may post past := by
  induction p generalizing past with
  | done a => exact h
  | read q next ih => exact ⟨h.1, fun a => ih a (h.2 a)⟩

theorem mono {post post' : List (Σ q, A q) → α → Prop} (h : p.Asks may post past)
    (hp : ∀ past a, post past a → post' past a) : p.Asks may post' past := by
  induction p generalizing past with
  | done a => exact hp past a h
  | read q next ih => exact ⟨h.1, fun a => ih a (h.2 a)⟩

/-- Each query becomes a program that may ask its queries; `R` relates the answers to both. -/
theorem interpret {may' : List (Σ q, A' q) → Q' → Prop} {post : List (Σ q, A q) → α → Prop}
    {ha : (q : Q) → ReadProgram Q' A' (A q)} {R : List (Σ q, A q) → List (Σ q, A' q) → Prop}
    (hh : ∀ past past' q, R past past' → may past q →
      (ha q).Asks may' (fun past'' a => R (⟨q, a⟩ :: past) past'') past')
    (h : p.Asks may post past) {past' : List (Σ q, A' q)} (hR : R past past') :
    (p.interpret ha).Asks may' (fun past' a => ∃ past, R past past' ∧ post past a) past' := by
  induction p generalizing past past' with
  | done a => exact ⟨past, hR, h⟩
  | read q next ih =>
    exact .bind ((hh past past' q hR h.1).mono fun past'' a hR' => ih a (h.2 a) hR')

end Asks

/-- **One fixed assignment of answers.** While the inputs keep an invariant under which the system
answers every query that the program may ask as `fixed` does, the program's result is its result
against `fixed`. -/
theorem interleave_eq_eval {step : σ → ι → σ} {answer : σ → (q : Q) → A q}
    {before : ℕ → List ι} {fixed : (q : Q) → A q} {may : List (Σ q, A q) → Q → Prop}
    {Inv : σ → Prop} {Quiet : σ → ι → Prop} (hst : ∀ s i, Inv s → Quiet s i → Inv (step s i))
    (ha : ∀ s, Inv s → ∀ past q, (∀ e ∈ past, e.2 = fixed e.1) → may past q →
      answer s q = fixed q)
    {p : ReadProgram Q A α} {post : List (Σ q, A q) → α → Prop} {past : List (Σ q, A q)}
    (hp : ∀ e ∈ past, e.2 = fixed e.1) (has : p.Asks may post past) {t : ℕ} {s : σ} (hs : Inv s)
    (hqt : ∀ n, Run.Along step Quiet s ((List.range' t n).flatMap before)) :
    interleave step answer before t s p = eval fixed p := by
  induction p generalizing t s past with
  | done a => rfl
  | read q next ih =>
    obtain ⟨hmay, hn⟩ := has
    -- the inputs before this query, and those before the later ones
    have hqt' : ∀ n, Run.Along step Quiet s (before t) ∧ Run.Along step Quiet
        ((before t).foldl step s) ((List.range' (t + 1) n).flatMap before) := fun n =>
      Run.along_append.1 (hqt (n + 1))
    have hs' : Inv ((before t).foldl step s) := (hqt' 0).1.invariant hs hst
    have hq := ha _ hs' past q hp hmay
    rw [interleave, eval, hq]
    refine ih (fixed q) ?_ (hn (fixed q)) hs' fun n => (hqt' n).2
    simpa using hp

end ReadProgram
