import MachineCode.Label

/-!
# How work ends

Emission and linking are state monads that keep the state of a failed run. A statement about such
work names what holds after success and what holds after failure; the rules below take it apart
along the structure of the work.
-/

namespace MachineCode

def Failure.isMemory : Failure → Bool
  | .error cause => cause.isMemory
  | .violation _ | .refused => false

/-- Work started in `s` gives a value and a state with `ok`, or a failure and a state with `err`. -/
def Ends {ε σ α : Type} (work : EStateM ε σ α) (s : σ) (ok : α → σ → Prop)
    (err : ε → σ → Prop) : Prop :=
  match work s with
  | .ok a t => ok a t
  | .error e t => err e t

section

variable {ε σ α β : Type} {s : σ} {ok : α → σ → Prop} {err : ε → σ → Prop}

theorem Ends.mono {ok' : α → σ → Prop} {err' : ε → σ → Prop} {work : EStateM ε σ α}
    (h : Ends work s ok err) (hok : ∀ a t, ok a t → ok' a t) (herr : ∀ e t, err e t → err' e t) :
    Ends work s ok' err' := by
  unfold Ends at h ⊢
  cases hw : work s with
  | ok a t => exact hok a t (by simpa only [hw] using h)
  | error e t => exact herr e t (by simpa only [hw] using h)

theorem Ends.err_left {err' : ε → σ → Prop} {work : EStateM ε σ α}
    (h : Ends work s ok (fun e t => err e t ∧ err' e t)) : Ends work s ok err :=
  h.mono (fun _ _ h => h) (fun _ _ h => h.1)

theorem Ends.err_right {err' : ε → σ → Prop} {work : EStateM ε σ α}
    (h : Ends work s ok (fun e t => err e t ∧ err' e t)) : Ends work s ok err' :=
  h.mono (fun _ _ h => h) (fun _ _ h => h.2)

theorem Ends.and {ok' : α → σ → Prop} {err' : ε → σ → Prop} {work : EStateM ε σ α}
    (h : Ends work s ok err) (h' : Ends work s ok' err') :
    Ends work s (fun a t => ok a t ∧ ok' a t) (fun e t => err e t ∧ err' e t) := by
  unfold Ends at h h' ⊢
  cases hw : work s with
  | ok a t => exact ⟨by simpa only [hw] using h, by simpa only [hw] using h'⟩
  | error e t => exact ⟨by simpa only [hw] using h, by simpa only [hw] using h'⟩

theorem ends_bind {work : EStateM ε σ β} {next : β → EStateM ε σ α} :
    Ends (work >>= next) s ok err ↔ Ends work s (fun b t => Ends (next b) t ok err) err := by
  simp only [Ends, bind, EStateM.bind]
  cases work s <;> rfl

theorem ends_map {f : β → α} {work : EStateM ε σ β} :
    Ends (f <$> work) s ok err ↔ Ends work s (fun b t => ok (f b) t) err := by
  simp only [Ends, Functor.map, EStateM.map]
  cases work s <;> rfl

theorem ends_pure {a : α} : Ends (pure a) s ok err ↔ ok a s :=
  Iff.rfl

theorem ends_throw {e : ε} : Ends (throw e : EStateM ε σ α) s ok err ↔ err e s :=
  Iff.rfl

/-- The state of a failure is the one in which its answer starts. -/
theorem ends_tryCatch {work : EStateM ε σ α} {handle : ε → EStateM ε σ α} :
    Ends (tryCatch work handle) s ok err ↔
      Ends work s ok (fun e t => Ends (handle e) t ok err) := by
  simp only [Ends, MonadExcept.tryCatch, tryCatchThe, MonadExceptOf.tryCatch]
  delta EStateM.tryCatch
  cases work s <;> rfl

theorem ends_get {ok : σ → σ → Prop} : Ends get s ok err ↔ ok s s :=
  Iff.rfl

theorem ends_modify {f : σ → σ} {ok : PUnit → σ → Prop} :
    Ends (modify f) s ok err ↔ ok ⟨⟩ (f s) :=
  Iff.rfl

theorem ends_of_true {work : EStateM ε σ α} {p : Prop} (h : p) :
    Ends work s (fun _ _ => p) (fun _ _ => True) := by
  unfold Ends
  split
  · exact h
  · trivial

theorem ends_ite {p : Prop} [Decidable p] {yes no : EStateM ε σ α} :
    Ends (if p then yes else no) s ok err ↔
      (p → Ends yes s ok err) ∧ (¬p → Ends no s ok err) := by
  split
  · exact ⟨fun h => ⟨fun _ => h, fun hn => absurd ‹p› hn⟩, fun h => h.1 ‹p›⟩
  · exact ⟨fun h => ⟨fun hp => absurd hp ‹¬p›, fun _ => h⟩, fun h => h.2 ‹¬p›⟩

end

section

variable {σ α : Type} {s : σ} {ok : α → σ → Prop} {err : Failure → σ → Prop}

theorem ends_checked {result : Except EmitError α} :
    Ends (checked result) s ok err ↔
      (∀ a, result = .ok a → ok a s) ∧ (∀ e, result = .error e → err (.error e) s) := by
  cases result <;> simp [Ends, checked]

theorem ends_asserted {result : Except Violation α} :
    Ends (asserted result) s ok err ↔
      (∀ a, result = .ok a → ok a s) ∧ (∀ v, result = .error v → err (.violation v) s) := by
  cases result <;> simp [Ends, asserted]

theorem ends_asserted_ok {a : α} : Ends (asserted (.ok a)) s ok err ↔ ok a s :=
  Iff.rfl

end

section

variable {α : Type} {b : CodeBuffer} {l : Label} {ok : α → Linking → Prop}
  {err : Failure → Linking → Prop}

theorem ends_onBuffer {work : Emit α} :
    Ends (Link.onBuffer work) ⟨b, l⟩ ok err ↔
      Ends work b (fun a c => ok a ⟨c, l⟩) (fun e c => err e ⟨c, l⟩) := by
  simp only [Ends, Link.onBuffer]
  cases work b <;> rfl

theorem ends_size {ok : Nat → Linking → Prop} {s : Linking} :
    Ends Link.size s ok err ↔ ok s.buffer.size s :=
  Iff.rfl

theorem ends_notify {n : Notice} {ok : Unit → Linking → Prop} :
    Ends (Link.notify n) ⟨b, l⟩ ok err ↔ ok () ⟨b.notify n, l⟩ :=
  Iff.rfl

end

/-! ## Loops -/

/-- A run of the loop that does the body as long as the state asks for it. A failure of the body
ends it. -/
inductive Loops {ε σ : Type} (Goes : σ → Prop) (body : EStateM ε σ Unit) :
    σ → EStateM.Result ε σ Unit → Prop
  | done {s : σ} (stop : ¬Goes s) : Loops Goes body s (.ok () s)
  | again {s t : σ} {result : EStateM.Result ε σ Unit} (go : Goes s)
    (pass : body s = .ok () t) (rest : Loops Goes body t result) : Loops Goes body s result
  | failed {s t : σ} {failure : ε} (go : Goes s)
    (pass : body s = .error failure t) : Loops Goes body s (.error failure t)

namespace Loops

variable {ε σ : Type} {Goes : σ → Prop} {body : EStateM ε σ Unit} {s : σ}

theorem unique {result result' : EStateM.Result ε σ Unit}
    (h : Loops Goes body s result) (h' : Loops Goes body s result') : result = result' := by
  induction h with
  | done stop =>
    cases h' with
    | done _ => rfl
    | again go _ _ => exact absurd go stop
    | failed go _ => exact absurd go stop
  | again go pass _ ih =>
    cases h' with
    | done stop => exact absurd go stop
    | again _ pass' rest' =>
      cases pass.symm.trans pass'
      exact ih rest'
    | failed _ pass' => cases pass.symm.trans pass'
  | failed go pass =>
    cases h' with
    | done stop => exact absurd go stop
    | again _ pass' _ => cases pass.symm.trans pass'
    | failed _ pass' =>
      cases pass.symm.trans pass'
      rfl

theorem step {first next : EStateM ε σ Unit} (go : Goes s) (hbody : body s = first s)
    (hrest : ∀ t, first s = .ok () t → Loops Goes body t (next t)) :
    Loops Goes body s ((do first; next : EStateM ε σ Unit) s) := by
  have hbind : (do first; next : EStateM ε σ Unit) s = EStateM.bind first (fun _ => next) s := rfl
  rw [hbind, EStateM.bind]
  cases hfirst : first s with
  | ok _ t => exact .again go (hbody.trans hfirst) (hrest t hfirst)
  | error failure t => exact .failed go (hbody.trans hfirst)

/-- What each pass keeps holds at the end, and there the loop stops. -/
theorem ends {work : EStateM ε σ Unit} {Keeps : σ → Prop} {err : ε → σ → Prop}
    (hpass : ∀ t, Keeps t → Goes t → Ends body t (fun _ u => Keeps u) err)
    (h : Loops Goes body s (work s)) (hs : Keeps s) :
    Ends work s (fun _ t => Keeps t ∧ ¬Goes t) err := by
  rw [Ends]
  generalize work s = result at h
  induction h with
  | done stop => exact ⟨hs, stop⟩
  | again go pass _ ih =>
    have hkeeps := hpass _ hs go
    rw [Ends, pass] at hkeeps
    exact ih hkeeps
  | failed go pass =>
    have hfailed := hpass _ hs go
    rw [Ends, pass] at hfailed
    exact hfailed

end Loops

/-! ## Work that always keeps something -/

/-- Whatever its outcome, the work leads from a state to a related one. -/
def Always {ε σ α : Type} (R : σ → σ → Prop) (work : EStateM ε σ α) : Prop :=
  ∀ s, Ends work s (fun _ t => R s t) (fun _ t => R s t)

section

variable {ε σ α β : Type} {R : σ → σ → Prop}

theorem Always.bind [Trans R R R] {work : EStateM ε σ β} {next : β → EStateM ε σ α}
    (h : Always R work) (hnext : ∀ b, Always R (next b)) : Always R (work >>= next) := by
  intro s
  rw [ends_bind]
  apply (h s).mono
  · intro b t ht
    apply (hnext b t).mono
    · exact fun _ u hu => Trans.trans ht hu
    · exact fun _ u hu => Trans.trans ht hu
  · exact fun _ _ ht => ht

theorem Always.map {f : β → α} {work : EStateM ε σ β} (h : Always R work) :
    Always R (f <$> work) := by
  intro s
  rw [ends_map]
  exact h s

theorem Always.ite {p : Prop} [Decidable p] {yes no : EStateM ε σ α} (hyes : Always R yes)
    (hno : Always R no) : Always R (if p then yes else no) := by
  split
  · exact hyes
  · exact hno

theorem Always.tryCatch [Trans R R R] {work : EStateM ε σ α} {handle : ε → EStateM ε σ α}
    (h : Always R work) (hhandle : ∀ e, Always R (handle e)) :
    Always R (MonadExcept.tryCatch work handle) := by
  intro s
  rw [ends_tryCatch]
  apply (h s).mono
  · exact fun _ _ ht => ht
  · intro e t ht
    apply (hhandle e t).mono
    · exact fun _ u hu => Trans.trans ht hu
    · exact fun _ u hu => Trans.trans ht hu

variable [Std.Refl R]

theorem always_pure (a : α) : Always R (pure a : EStateM ε σ α) :=
  fun s => Std.Refl.refl s

theorem always_get : Always R (get : EStateM ε σ σ) :=
  fun s => Std.Refl.refl s

theorem always_throw (e : ε) : Always R (throw e : EStateM ε σ α) :=
  fun s => Std.Refl.refl s

end

theorem always_checked {σ α : Type} {R : σ → σ → Prop} [Std.Refl R] (result : Except EmitError α) :
    Always R (checked result) :=
  fun s => ends_checked.mpr ⟨fun _ _ => Std.Refl.refl s, fun _ _ => Std.Refl.refl s⟩

/-! ## Work that never fails in some way -/

/-- The work does not fail in the given way, whatever the state. -/
def Never {σ α : Type} (bad : Failure → Bool) (work : EStateM Failure σ α) : Prop :=
  ∀ s, Ends work s (fun _ _ => True) (fun failure _ => bad failure = false)

section

variable {σ α β : Type} {bad : Failure → Bool}

theorem Never.bind {work : EStateM Failure σ β} {next : β → EStateM Failure σ α}
    (h : Never bad work) (hnext : ∀ b, Never bad (next b)) : Never bad (work >>= next) := by
  intro s
  rw [ends_bind]
  apply (h s).mono
  · exact fun b t _ => hnext b t
  · exact fun _ _ hf => hf

theorem Never.map {f : β → α} {work : EStateM Failure σ β} (h : Never bad work) :
    Never bad (f <$> work) := by
  intro s
  rw [ends_map]
  exact h s

theorem Never.ite {p : Prop} [Decidable p] {yes no : EStateM Failure σ α} (hyes : Never bad yes)
    (hno : Never bad no) : Never bad (if p then yes else no) := by
  split
  · exact hyes
  · exact hno

theorem never_pure (a : α) : Never bad (pure a : EStateM Failure σ α) :=
  fun _ => trivial

theorem never_get : Never bad (get : EStateM Failure σ σ) :=
  fun _ => trivial

theorem never_modify (f : σ → σ) : Never bad (modify f : EStateM Failure σ PUnit) :=
  fun _ => trivial

theorem never_throw {failure : Failure} (h : bad failure = false) :
    Never bad (throw failure : EStateM Failure σ α) :=
  fun _ => h

theorem never_checked (h : ∀ cause, bad (.error cause) = false) (result : Except EmitError α) :
    Never bad (checked result : EStateM Failure σ α) :=
  fun _ => ends_checked.mpr ⟨fun _ _ => trivial, fun cause _ => h cause⟩

end

/-! ## Checked and asserted computations -/

theorem except_bind_eq_ok {ε α β : Type} {x : Except ε α} {f : α → Except ε β} {b : β} :
    x >>= f = .ok b ↔ ∃ a, x = .ok a ∧ f a = .ok b := by
  cases x <;> simp [bind, Except.bind]

theorem ok_bind {ε α β : Type} (a : α) (f : α → Except ε β) : Except.ok a >>= f = f a :=
  rfl

theorem ofAsserted_ok {α : Type} (a : α) : ofAsserted (.ok a) = .ok a :=
  rfl

end MachineCode
