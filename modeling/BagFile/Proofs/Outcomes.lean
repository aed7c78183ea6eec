/-
  What an operation may fail with, and what it keeps.

  * `FailsWith E op`: whatever the state, an error of `op` is one of those in `E`;
    `ErrsIn E x` says the same of a result;
  * `Keeps P op`: what holds of the state before `op` holds after it, if `op` succeeds;
  * `Upholds P Q op`: the same whether `op` succeeds or fails, and what it gives is in `Q`;
    `Spares P op` says it of failures only;
  * all of them follow the ways in which operations are made of others, so that they are proved
    by going along the text of an operation.
-/
import BagFile.Proofs.Writing

namespace BagFile

/-- Every error of an operation is one of those in `E`. -/
def FailsWith {σ α : Type} (E : Error → Prop) (op : EStateM Error σ α) : Prop :=
  ∀ s e s', op.run s = .error e s' → E e

/-- The error of a result, if it is one, is in `E`. -/
def ErrsIn {α : Type} (E : Error → Prop) (x : Except Error α) : Prop :=
  ∀ e, x = .error e → E e

/-- An operation that succeeds keeps what holds of the state. -/
def Keeps {σ α : Type} (P : σ → Prop) (op : EStateM Error σ α) : Prop :=
  ∀ s a s', op.run s = .ok a s' → P s → P s'

/-- An operation that fails has kept what holds of the state. -/
def Spares {σ α : Type} (P : σ → Prop) (op : EStateM Error σ α) : Prop :=
  ∀ s e s', op.run s = .error e s' → P s → P s'

/-- Whether it succeeds or not, an operation keeps what holds of the state; what it gives is in
    `Q`. -/
structure Upholds {σ α : Type} (P : σ → Prop) (Q : α → Prop) (op : EStateM Error σ α) : Prop where
  gives : ∀ s a s', op.run s = .ok a s' → P s → Q a ∧ P s'
  spares : Spares P op

variable {σ α β : Type} {E : Error → Prop} {P : σ → Prop} {c : Prop} [Decidable c]

/-- An operation with a condition under which it gives up: if it succeeds, that did not hold. -/
theorem run_refuse_eq_ok {e : Error} {k : PUnit → EStateM Error σ α} {s s' : σ} {a : α}
    (h : (if c then throw e >>= k else k ⟨⟩).run s = .ok a s') :
    ¬c ∧ (k ⟨⟩).run s = .ok a s' := by
  by_cases hc : c
  · rw [if_pos hc] at h
    cases h
  · rw [if_neg hc] at h
    exact ⟨hc, h⟩

/-! ## Results -/

theorem bind_eq_ok {x : Except Error α} {k : α → Except Error β} {b : β} (h : x >>= k = .ok b) :
    ∃ a, x = .ok a ∧ k a = .ok b := by
  cases x with
  | error e => cases h
  | ok a => exact ⟨a, rfl, h⟩

namespace ErrsIn

theorem ok (a : α) : ErrsIn E (.ok a) := by
  intro e h
  cases h

theorem error {e : Error} (h : E e) : ErrsIn E (.error e : Except Error α) := by
  intro e' h'
  cases h'
  exact h

theorem bind {x : Except Error α} {k : α → Except Error β} (h : ErrsIn E x)
    (hk : ∀ a, ErrsIn E (k a)) : ErrsIn E (x >>= k) := by
  intro e he
  cases x with
  | error e' =>
    cases he
    exact h _ rfl
  | ok a => exact hk a e he

theorem check {e : Error} {x : Except Error α} (he : E e) (h : ErrsIn E x) :
    ErrsIn E (if c then .error e else x) := by
  split
  · exact error he
  · exact h

end ErrsIn

/-! ## Errors of operations -/

namespace FailsWith

theorem pure (a : α) : FailsWith E (Pure.pure a : EStateM Error σ α) := by
  intro s e s' h
  cases h

theorem throw {e : Error} (h : E e) : FailsWith E (throw e : EStateM Error σ α) := by
  intro s e' s' h'
  cases h'
  exact h

theorem bind {op : EStateM Error σ α} {k : α → EStateM Error σ β} (h : FailsWith E op)
    (hk : ∀ a, FailsWith E (k a)) : FailsWith E (op >>= k) := by
  intro s e s' he
  rw [EStateM.run_bind] at he
  rcases hop : op.run s with ⟨a, s₁⟩ | ⟨e₁, s₁⟩
  · rw [hop] at he
    exact hk a s₁ e s' he
  · rw [hop] at he
    cases he
    exact h s _ _ hop

/-- An operation that always succeeds. -/
theorem total {op : EStateM Error σ α} (h : ∀ s, ∃ a s', op.run s = .ok a s') :
    FailsWith E op := by
  intro s e s' he
  obtain ⟨a, s₁, hok⟩ := h s
  rw [hok] at he
  cases he

theorem onGet : FailsWith E (get : EStateM Error σ σ) :=
  total fun s => ⟨s, s, rfl⟩

theorem onModify (f : σ → σ) : FailsWith E (modify f : EStateM Error σ PUnit) :=
  total fun s => ⟨⟨⟩, f s, rfl⟩

/-- A condition under which an operation gives up. -/
theorem refuse {e : Error} {k : PUnit → EStateM Error σ α} (he : E e) (h : FailsWith E (k ⟨⟩)) :
    FailsWith E (if c then MonadExcept.throw e >>= k else k ⟨⟩) := by
  split
  · exact (throw he).bind fun _ => h
  · exact h

theorem ofExcept {x : Except Error α} (h : ErrsIn E x) :
    FailsWith E (MonadExcept.ofExcept x : EStateM Error σ α) := by
  intro s e s' he
  cases x with
  | error e' =>
    cases he
    exact h _ rfl
  | ok a => cases he

theorem forM {f : β → EStateM Error σ PUnit} (h : ∀ x, FailsWith E (f x)) (xs : List β) :
    FailsWith E (xs.forM f) := by
  induction xs with
  | nil => exact pure _
  | cons x xs ih => exact (h x).bind fun _ => ih

end FailsWith

/-! ## What is kept -/

namespace Keeps

theorem pure (a : α) : Keeps P (Pure.pure a) := by
  intro s b s' h hP
  cases h
  exact hP

theorem bind {op : EStateM Error σ α} {k : α → EStateM Error σ β} (h : Keeps P op)
    (hk : ∀ a, Keeps P (k a)) : Keeps P (op >>= k) := by
  intro s b s' hrun hP
  obtain ⟨a, s₁, hop, hrest⟩ := run_bind_eq_ok hrun
  exact hk a s₁ b s' hrest (h s a s₁ hop hP)

theorem refuse {e : Error} {k : PUnit → EStateM Error σ α} (h : Keeps P (k ⟨⟩)) :
    Keeps P (if c then MonadExcept.throw e >>= k else k ⟨⟩) := by
  split
  · intro s a s' hrun
    cases hrun
  · exact h

theorem ofExcept (x : Except Error α) : Keeps P (MonadExcept.ofExcept x) := by
  intro s a s' h hP
  cases x with
  | error e => cases h
  | ok b =>
    cases h
    exact hP

end Keeps

/-! ## What is kept in any case -/

namespace Spares

variable {Q : α → Prop}

theorem total {op : EStateM Error σ α} (h : ∀ s, ∃ a s', op.run s = .ok a s') : Spares P op := by
  intro s e s' hrun
  obtain ⟨a, s₁, hok⟩ := h s
  rw [hok] at hrun
  cases hrun

theorem bind {op : EStateM Error σ α} {k : α → EStateM Error σ β} (h : Upholds P Q op)
    (hk : ∀ a, Q a → Spares P (k a)) : Spares P (op >>= k) := by
  intro s e s' hrun hP
  rw [EStateM.run_bind] at hrun
  rcases hop : op.run s with ⟨a, s₁⟩ | ⟨e₁, s₁⟩
  · rw [hop] at hrun
    obtain ⟨ha, hs₁⟩ := h.gives s a s₁ hop hP
    exact hk a ha s₁ e s' hrun hs₁
  · rw [hop] at hrun
    cases hrun
    exact h.spares s _ _ hop hP

/-- Behind the last step that may fail, nothing has to be kept. -/
theorem bind_total {op : EStateM Error σ α} {k : α → EStateM Error σ β} (h : Spares P op)
    (hk : ∀ a s, ∃ b s', (k a).run s = .ok b s') : Spares P (op >>= k) := by
  intro s e s' hrun hP
  rw [EStateM.run_bind] at hrun
  rcases hop : op.run s with ⟨a, s₁⟩ | ⟨e₁, s₁⟩
  · obtain ⟨b, s₂, hok⟩ := hk a s₁
    rw [hop] at hrun
    simp only [hok] at hrun
    cases hrun
  · rw [hop] at hrun
    cases hrun
    exact h s _ _ hop hP

end Spares

namespace Upholds

variable {Q R : α → Prop} {S : β → Prop}

/-- An operation that always succeeds. -/
theorem total {op : EStateM Error σ α}
    (h : ∀ s, ∃ a s', op.run s = .ok a s' ∧ (P s → Q a ∧ P s')) : Upholds P Q op := by
  refine ⟨fun s a s' hrun hP => ?_, Spares.total fun s => ?_⟩
  · obtain ⟨a₁, s₁, hok, hkeeps⟩ := h s
    rw [hok] at hrun
    cases hrun
    exact hkeeps hP
  · obtain ⟨a, s', hok, -⟩ := h s
    exact ⟨a, s', hok⟩

theorem pure {a : α} (h : Q a) : Upholds P Q (Pure.pure a) :=
  total fun s => ⟨a, s, rfl, fun hP => ⟨h, hP⟩⟩

theorem throw (e : Error) : Upholds P Q (throw e) := by
  constructor
  · intro s a s' hrun
    cases hrun
  · intro s e' s' hrun hP
    cases hrun
    exact hP

theorem bind {op : EStateM Error σ α} {k : α → EStateM Error σ β} (h : Upholds P Q op)
    (hk : ∀ a, Q a → Upholds P S (k a)) : Upholds P S (op >>= k) := by
  refine ⟨fun s b s' hrun hP => ?_, Spares.bind h fun a ha => (hk a ha).spares⟩
  obtain ⟨a, s₁, hop, hrest⟩ := run_bind_eq_ok hrun
  obtain ⟨ha, hs₁⟩ := h.gives s a s₁ hop hP
  exact (hk a ha).gives s₁ b s' hrest hs₁

/-- The state that is looked at is as it should be. -/
theorem onGet : Upholds P P (get : EStateM Error σ σ) :=
  total fun s => ⟨s, s, rfl, fun hP => ⟨hP, hP⟩⟩

theorem onModify {f : σ → σ} (h : ∀ s, P s → P (f s)) :
    Upholds P (fun _ => True) (modify f : EStateM Error σ PUnit) :=
  total fun s => ⟨⟨⟩, f s, rfl, fun hP => ⟨trivial, h s hP⟩⟩

theorem onSet {s : σ} (h : P s) : Upholds P (fun _ => True) (set s : EStateM Error σ PUnit) :=
  total fun _ => ⟨⟨⟩, s, rfl, fun _ => ⟨trivial, h⟩⟩

theorem refuse {e : Error} {k : PUnit → EStateM Error σ α} (h : Upholds P Q (k ⟨⟩)) :
    Upholds P Q (if c then MonadExcept.throw e >>= k else k ⟨⟩) := by
  split
  · exact (throw (Q := fun _ => True) e).bind fun _ _ => h
  · exact h

theorem ofExcept (x : Except Error α) :
    Upholds P (fun _ => True) (MonadExcept.ofExcept x : EStateM Error σ α) := by
  cases x with
  | error e => exact throw e
  | ok a => exact pure trivial

theorem forM {f : β → EStateM Error σ PUnit} (h : ∀ x, Upholds P (fun _ => True) (f x))
    (xs : List β) : Upholds P (fun _ => True) (xs.forM f) := by
  induction xs with
  | nil => exact pure trivial
  | cons x xs ih => exact (h x).bind fun _ _ => ih

end Upholds

end BagFile
