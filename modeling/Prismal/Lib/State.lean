import Mathlib.Data.List.Basic
import Mathlib.Order.Defs.Unbundled

namespace Prismal.Lib
set_option autoImplicit true

theorem except_bind_ok {x : Except ε α} {f : α → Except ε β} (h : (x >>= f) = .ok b) :
    ∃ a, x = .ok a ∧ f a = .ok b := by
  cases x with
  | error e => cases h
  | ok a => exact ⟨a, rfl, h⟩

theorem except_bind_error {x : Except ε α} {f : α → Except ε β} (h : (x >>= f) = .error e) :
    x = .error e ∨ ∃ a, x = .ok a ∧ f a = .error e := by
  cases x with
  | error e' =>
    cases h
    exact .inl rfl
  | ok a => exact .inr ⟨a, rfl, h⟩

theorem except_pure_ok {a b : α} (h : (pure a : Except ε α) = .ok b) : b = a := by
  cases h
  rfl

theorem mapM_cons_ok {f : α → Except ε β} (h : (a :: as).mapM f = .ok bs) :
    ∃ b bs', f a = .ok b ∧ as.mapM f = .ok bs' ∧ bs = b :: bs' := by
  rw [List.mapM_cons] at h
  obtain ⟨b, hb, h₁⟩ := except_bind_ok h
  obtain ⟨bs', hbs, h₂⟩ := except_bind_ok h₁
  exact ⟨b, bs', hb, hbs, except_pure_ok h₂⟩

theorem map_of_mapM_ok {f : α → Except ε β} {g : β → γ} {h : α → γ} {as : List α} {bs : List β}
    (hg : ∀ a b, f a = .ok b → g b = h a) (hbs : as.mapM f = .ok bs) : bs.map g = as.map h := by
  induction as generalizing bs with
  | nil =>
    rw [except_pure_ok hbs]
    rfl
  | cons a as ih =>
    obtain ⟨b, bs', hb, hbs', rfl⟩ := mapM_cons_ok hbs
    rw [List.map_cons, List.map_cons, hg a b hb, ih hbs']

theorem foldlM_each {l : List α} {step : σ → α → Except ε σ} {R : σ → σ → Prop}
    {P : α → σ → Prop} (hrefl : ∀ s, R s s) (htrans : ∀ s t u, R s t → R t u → R s u)
    (hkeep : ∀ a s t, R s t → P a s → P a t)
    (hstep : ∀ s a t, step s a = .ok t → R s t ∧ P a t) (h : l.foldlM step s = .ok t) :
    R s t ∧ ∀ a ∈ l, P a t := by
  induction l generalizing s with
  | nil =>
    cases except_pure_ok h
    exact ⟨hrefl t, fun _ ha => absurd ha List.not_mem_nil⟩
  | cons a rest ih =>
    rw [List.foldlM_cons] at h
    obtain ⟨u, hu, hrest⟩ := except_bind_ok h
    obtain ⟨hsu, ha⟩ := hstep s a u hu
    obtain ⟨hut, hall⟩ := ih hrest
    apply And.intro
    · exact htrans s u t hsu hut
    · intro b hb
      rcases List.mem_cons.1 hb with rfl | hb
      · exact hkeep b u t hut ha
      · exact hall b hb

/-! What a computation with state and exceptions did when it returned normally. -/

variable {ε σ α β γ : Type}

theorem bind_ok {x : EStateM ε σ α} {f : α → EStateM ε σ β} {s s' : σ} {b : β}
    (h : (x >>= f) s = .ok b s') : ∃ a t, x s = .ok a t ∧ f a t = .ok b s' := by
  change EStateM.bind x f s = .ok b s' at h
  unfold EStateM.bind at h
  split at h
  next a t hx => exact ⟨a, t, hx, h⟩
  next => cases h

theorem bind_error {x : EStateM ε σ α} {f : α → EStateM ε σ β} {s s' : σ} {e : ε}
    (h : (x >>= f) s = .error e s') :
    x s = .error e s' ∨ ∃ a t, x s = .ok a t ∧ f a t = .error e s' := by
  change EStateM.bind x f s = .error e s' at h
  unfold EStateM.bind at h
  split at h
  next a t hx => exact .inr ⟨a, t, hx, h⟩
  next e' t hx =>
    cases h
    exact .inl hx

def left : EStateM.Result ε σ α → σ
  | .ok _ s => s
  | .error _ s => s

def raises : EStateM.Result ε σ α → Bool
  | .ok _ _ => false
  | .error _ _ => true

theorem bind_of_ok {x : EStateM ε σ α} {f : α → EStateM ε σ β} {s t : σ} {a : α}
    (h : x s = .ok a t) : (x >>= f) s = f a t := by
  change EStateM.bind x f s = _
  rw [EStateM.bind, h]

theorem bind_of_error {x : EStateM ε σ α} {f : α → EStateM ε σ β} {s t : σ} {e : ε}
    (h : x s = .error e t) : (x >>= f) s = .error e t := by
  change EStateM.bind x f s = _
  rw [EStateM.bind, h]

theorem left_map {x : EStateM ε σ α} {f : α → β} (s : σ) :
    left ((do
      let a ← x
      return f a : EStateM ε σ β) s) = left (x s) ∧
    raises ((do
      let a ← x
      return f a : EStateM ε σ β) s) = raises (x s) := by
  cases h : x s with
  | ok a t =>
    rw [bind_of_ok h]
    exact ⟨rfl, rfl⟩
  | error e t =>
    rw [bind_of_error h]
    exact ⟨rfl, rfl⟩

theorem pure_ok {a b : α} {s s' : σ} (h : (pure a : EStateM ε σ α) s = .ok b s') :
    b = a ∧ s' = s := by
  cases h
  exact ⟨rfl, rfl⟩

theorem get_ok {s s' t : σ} (h : (get : EStateM ε σ σ) s = .ok t s') : t = s ∧ s' = s := by
  cases h
  exact ⟨rfl, rfl⟩

theorem set_ok {s s' t : σ} {u : PUnit} (h : (set t : EStateM ε σ PUnit) s = .ok u s') :
    s' = t := by
  cases h
  rfl

theorem modify_ok {f : σ → σ} {s s' : σ} {u : PUnit}
    (h : (modify f : EStateM ε σ PUnit) s = .ok u s') : s' = f s := by
  cases h
  rfl

/-- A normal return leaves the view `f` of the state as it is and returns a value in `P`. -/
def Keeps (f : σ → β) (P : α → Prop) (x : EStateM ε σ α) : Prop :=
  ∀ s a s', x s = .ok a s' → f s' = f s ∧ P a

namespace Keeps

variable {f : σ → γ} {P P' : α → Prop} {x : EStateM ε σ α}

theorem pure {a : α} (h : P a) : Keeps f P (Pure.pure a : EStateM ε σ α) := by
  intro s b s' hs
  obtain ⟨rfl, rfl⟩ := pure_ok hs
  exact ⟨rfl, h⟩

theorem bind {Q : β → Prop} {g : α → EStateM ε σ β} (hx : Keeps f P x)
    (hg : ∀ a, P a → Keeps f Q (g a)) : Keeps f Q (x >>= g) := by
  intro s b s' hs
  obtain ⟨a, t, h₁, h₂⟩ := bind_ok hs
  obtain ⟨hf, hp⟩ := hx s a t h₁
  obtain ⟨hf', hq⟩ := hg a hp t b s' h₂
  exact ⟨hf'.trans hf, hq⟩

theorem get : Keeps f (fun _ => True) (MonadState.get : EStateM ε σ σ) := by
  intro s b s' hs
  obtain ⟨rfl, rfl⟩ := get_ok hs
  exact ⟨rfl, trivial⟩

theorem modify {g : σ → σ} (h : ∀ s, f (g s) = f s) :
    Keeps f (fun _ => True) (modify g : EStateM ε σ PUnit) := by
  intro s b s' hs
  rw [modify_ok hs]
  exact ⟨h s, trivial⟩

theorem throw (e : ε) : Keeps f P (MonadExcept.throw e : EStateM ε σ α) := by
  intro s b s' hs
  cases hs

theorem mono (hx : Keeps f P x) (h : ∀ a, P a → P' a) : Keeps f P' x := by
  intro s a s' hs
  obtain ⟨hf, hp⟩ := hx s a s' hs
  exact ⟨hf, h a hp⟩

theorem ofExcept {e : Except ε α} (h : ∀ a, e = .ok a → P a) :
    Keeps f P (MonadExcept.ofExcept e : EStateM ε σ α) := by
  cases e with
  | error e => exact throw e
  | ok a => exact pure (h a rfl)

theorem foldlM {xs : List α} {g : β → α → EStateM ε σ β} {I : List α → β → Prop} {b : β}
    (hg : ∀ b x rest, I (x :: rest) b → Keeps f (I rest) (g b x)) (hb : I xs b) :
    Keeps f (I []) (xs.foldlM g b) := by
  induction xs generalizing b with
  | nil => exact pure hb
  | cons x rest ih =>
    rw [List.foldlM_cons]
    exact bind (hg b x rest hb) fun _ hb' => ih hb'

end Keeps

/-- A value in `P` is returned, whatever becomes of the state. -/
abbrev Yields (P : α → Prop) (x : EStateM ε σ α) : Prop := Keeps (fun _ : σ => ()) P x

namespace Yields

variable {P : α → Prop} {x : EStateM ε σ α}

theorem of (h : ∀ s a s', x s = .ok a s' → P a) : Yields P x :=
  fun s a s' hs => ⟨rfl, h s a s' hs⟩

theorem elim (hx : Yields P x) (h : x s = .ok a s') : P a := (hx s a s' h).2

theorem tryCatch {g : ε → EStateM ε σ α} (hx : Yields P x) (hg : ∀ e, Yields P (g e)) :
    Yields P (MonadExcept.tryCatch x g : EStateM ε σ α) := by
  intro s a s' hs
  change EStateM.tryCatch x g s = .ok a s' at hs
  delta EStateM.tryCatch at hs
  cases h : x s with
  | ok b t =>
    rw [h] at hs
    cases hs
    exact hx s a s' h
  | error e t =>
    rw [h] at hs
    exact ⟨rfl, (hg e).elim hs⟩

end Yields

end Prismal.Lib

namespace Prismal.Lib
set_option autoImplicit true

/-! What a computation does to the state, whichever way it ends. -/

/-- `m` takes every state to one that `R` relates it to, by returning or by raising. -/
def Effects (R : σ → σ → Prop) (m : EStateM ε σ α) : Prop := ∀ s, R s (left (m s))

namespace Effects

variable {R R' : σ → σ → Prop} {m : EStateM ε σ α}

section Refl

variable [Std.Refl R]

theorem pure {a : α} : Effects R (Pure.pure a : EStateM ε σ α) := fun s => Std.Refl.refl s

theorem throw {e : ε} : Effects R (MonadExcept.throw e : EStateM ε σ α) := fun s => Std.Refl.refl s

end Refl

theorem get_from {f : σ → EStateM ε σ α} {s : σ} (h : R s (left (f s s))) :
    R s (left ((MonadState.get >>= f) s)) := h

theorem get {f : σ → EStateM ε σ α} (h : ∀ s, R s (left (f s s))) :
    Effects R (MonadState.get >>= f) := fun s => get_from (h s)

section Trans

variable [IsTrans σ R]

theorem bind_from {f : α → EStateM ε σ β} {s : σ} (hm : R s (left (m s)))
    (hf : ∀ a t, m s = .ok a t → R t (left (f a t))) : R s (left ((m >>= f) s)) := by
  cases h : m s with
  | ok a t =>
    rw [bind_of_ok h]
    rw [h] at hm
    exact Trans.trans hm (hf a t h)
  | error e t =>
    rw [bind_of_error h]
    rw [h] at hm
    exact hm

theorem bind {f : α → EStateM ε σ β} (hm : Effects R m) (hf : ∀ a, Effects R (f a)) :
    Effects R (m >>= f) :=
  fun s => bind_from (hm s) fun a t _ => hf a t

theorem tryCatch_from {f : ε → EStateM ε σ α} {s : σ} (hm : R s (left (m s)))
    (hf : ∀ e, Effects R (f e)) : R s (left ((MonadExcept.tryCatch m f : EStateM ε σ α) s)) := by
  change R s (left (EStateM.tryCatch m f s))
  delta EStateM.tryCatch
  generalize m s = res at hm
  cases res with
  | ok a t => exact hm
  | error e t => exact Trans.trans hm (hf e t)

theorem tryCatch {f : ε → EStateM ε σ α} (hm : Effects R m) (hf : ∀ e, Effects R (f e)) :
    Effects R (MonadExcept.tryCatch m f : EStateM ε σ α) :=
  fun s => tryCatch_from (hm s) hf

theorem forM [Std.Refl R] {xs : List α} {f : α → EStateM ε σ PUnit} (hf : ∀ x, Effects R (f x)) :
    Effects R (xs.forM f) := by
  induction xs with
  | nil => exact pure
  | cons x rest ih => exact bind (hf x) fun _ => ih

end Trans

end Effects

/-- Every entry of a list satisfies `P` with those before it. -/
def Throughout (P : List α → α → Prop) (xs : List α) : Prop :=
  ∀ pre x post, xs = pre ++ x :: post → P pre x

theorem throughout_nil {P : List α → α → Prop} : Throughout P [] := by
  intro pre x post h
  simp at h

theorem throughout_concat {P : List α → α → Prop} {xs : List α} {x : α} :
    Throughout P (xs ++ [x]) ↔ Throughout P xs ∧ P xs x := by
  constructor
  · intro h
    refine ⟨?_, h xs x [] rfl⟩
    intro pre y post hxs
    exact h pre y (post ++ [x]) (by simp [hxs])
  · rintro ⟨hxs, hx⟩ pre y post h
    rcases List.eq_nil_or_concat' post with rfl | ⟨post', z, rfl⟩
    · obtain ⟨rfl, hy⟩ := List.append_inj' h rfl
      cases hy
      exact hx
    · rw [← List.cons_append, ← List.append_assoc] at h
      exact hxs pre y post' (List.append_inj' h rfl).1

/-! Pre- and postconditions of computations with state and exceptions. -/

/-- A result that satisfies `Q` where it is a value and `E` where it is an exception. -/
def Ends (Q : α → σ → Prop) (E : ε → σ → Prop) : EStateM.Result ε σ α → Prop
  | .ok a s => Q a s
  | .error e s => E e s

theorem Ends.mono {Q Q' : α → σ → Prop} {E E' : ε → σ → Prop} {res : EStateM.Result ε σ α}
    (hQ : ∀ a s, Q a s → Q' a s) (hE : ∀ e s, E e s → E' e s) (h : Ends Q E res) :
    Ends Q' E' res := by
  cases res with
  | ok a s => exact hQ a s h
  | error e s => exact hE e s h

/-- Started in a state that satisfies `P`, `m` returns with `Q` or raises with `E`. -/
def Spec (P : σ → Prop) (m : EStateM ε σ α) (Q : α → σ → Prop) (E : ε → σ → Prop) : Prop :=
  ∀ s, P s → Ends Q E (m s)

namespace Spec

variable {P P' : σ → Prop} {Q Q' : α → σ → Prop} {R : β → σ → Prop} {E E' : ε → σ → Prop}
  {m : EStateM ε σ α}

theorem pure {a : α} (h : ∀ s, P s → Q a s) : Spec P (Pure.pure a : EStateM ε σ α) Q E :=
  fun s hs => h s hs

theorem throw {e : ε} (h : ∀ s, P s → E e s) :
    Spec P (MonadExcept.throw e : EStateM ε σ α) Q E :=
  fun s hs => h s hs

theorem bind {f : α → EStateM ε σ β} (hm : Spec P m Q E) (hf : ∀ a, Spec (Q a) (f a) R E) :
    Spec P (m >>= f) R E := by
  intro s hs
  have hms := hm s hs
  change Ends R E (EStateM.bind m f s)
  rw [EStateM.bind]
  cases h : m s with
  | ok a t =>
    rw [h] at hms
    exact hf a t hms
  | error e t =>
    rw [h] at hms
    exact hms

theorem get {Q : σ → σ → Prop} (h : ∀ s, P s → Q s s) :
    Spec P (MonadState.get : EStateM ε σ σ) Q E :=
  fun s hs => h s hs

theorem modify {f : σ → σ} {Q : PUnit → σ → Prop} (h : ∀ s, P s → Q ⟨⟩ (f s)) :
    Spec P (modify f : EStateM ε σ PUnit) Q E :=
  fun s hs => h s hs

theorem conseq (hm : Spec P m Q E) (hP : ∀ s, P' s → P s) (hQ : ∀ a s, Q a s → Q' a s)
    (hE : ∀ e s, E e s → E' e s) : Spec P' m Q' E' := by
  intro s hs
  exact (hm s (hP s hs)).mono hQ hE

theorem error (hm : Spec P m Q E) (hs : P s) (h : m s = .error e s') : E e s' := by
  have hms := hm s hs
  rw [h] at hms
  exact hms

theorem pre (hm : Spec P m Q E) (hP : ∀ s, P' s → P s) : Spec P' m Q E :=
  hm.conseq hP (fun _ _ h => h) (fun _ _ h => h)

theorem post (hm : Spec P m Q E) (hQ : ∀ a s, Q a s → Q' a s) : Spec P m Q' E :=
  hm.conseq (fun _ h => h) hQ (fun _ _ h => h)

theorem tryCatch {f : ε → EStateM ε σ α} (hm : Spec P m Q E) (hf : ∀ e, Spec (E e) (f e) Q E') :
    Spec P (MonadExcept.tryCatch m f : EStateM ε σ α) Q E' := by
  intro s hs
  have hms := hm s hs
  change Ends Q E' (EStateM.tryCatch m f s)
  delta EStateM.tryCatch
  generalize m s = res at hms
  cases res with
  | ok a t => exact hms
  | error e t => exact hf e t hms

theorem forM {xs : List α} {f : α → EStateM ε σ PUnit} {I : List α → σ → Prop}
    (hf : ∀ x rest, Spec (I (x :: rest)) (f x) (fun _ => I rest) E) :
    Spec (I xs) (xs.forM f) (fun _ => I []) E := by
  induction xs with
  | nil => exact pure fun _ h => h
  | cons x rest ih => exact bind (hf x rest) fun _ => ih

theorem foldlM {xs : List α} {f : β → α → EStateM ε σ β} {I : List α → σ → Prop} {b : β}
    (hf : ∀ b x rest, Spec (I (x :: rest)) (f b x) (fun _ => I rest) E) :
    Spec (I xs) (xs.foldlM f b) (fun _ => I []) E := by
  induction xs generalizing b with
  | nil => exact pure fun _ h => h
  | cons x rest ih =>
    rw [List.foldlM_cons]
    exact bind (hf b x rest) fun _ => ih

theorem forM_done {ε σ α : Type} {xs : List α} {f : α → EStateM ε σ PUnit}
    {I E : List α → σ → Prop} {P : List α → α → Prop}
    (hf : ∀ pre x, Spec (I pre) (f x) (fun _ s => P pre x ∧ I (pre ++ [x]) s)
      (fun _ s => ¬ P pre x ∧ E pre s)) :
    Spec (I []) (xs.forM f) (fun _ s => Throughout P xs ∧ I xs s)
      (fun _ s => ∃ pre x post, xs = pre ++ x :: post ∧ Throughout P pre ∧ ¬ P pre x ∧
        E pre s) := by
  suffices h : ∀ pre rest, xs = pre ++ rest →
      Spec (fun s => Throughout P pre ∧ I pre s) (rest.forM f)
        (fun _ s => Throughout P xs ∧ I xs s)
        (fun _ s => ∃ pre x post, xs = pre ++ x :: post ∧ Throughout P pre ∧ ¬ P pre x ∧
          E pre s) from
    (h [] xs rfl).pre fun s hs => ⟨throughout_nil, hs⟩
  intro pre rest hxs
  induction rest generalizing pre with
  | nil =>
    rw [List.append_nil] at hxs
    subst hxs
    exact pure fun s hs => hs
  | cons x rest ih =>
    intro s hs
    have hx := hf pre x s hs.2
    have hrest := ih (pre ++ [x]) (by simp [hxs])
    change Ends _ _ ((f x >>= fun _ => rest.forM f) s)
    cases h : f x s with
    | ok a t =>
      rw [h] at hx
      rw [bind_of_ok h]
      exact hrest t ⟨throughout_concat.2 ⟨hs.1, hx.1⟩, hx.2⟩
    | error e t =>
      rw [h] at hx
      rw [bind_of_error h]
      exact ⟨pre, x, rest, hxs, hs.1, hx.1, hx.2⟩

end Spec

end Prismal.Lib

namespace Prismal.Lib
set_option autoImplicit true

/-! Two computations with state and exceptions, run side by side. -/

/-- Both results are values in `Q` or both are exceptions, and the states are related. -/
def Beside (R : σ → σ → Prop) (Q : α → β → Prop) :
    EStateM.Result ε σ α → EStateM.Result ε σ β → Prop
  | .ok a s, .ok b t => Q a b ∧ R s t
  | .error _ s, .error _ t => R s t
  | _, _ => False

/-- Started in related states, the two computations do the same up to `R` and `Q`. -/
def Rel (R : σ → σ → Prop) (Q : α → β → Prop) (x : EStateM ε σ α) (y : EStateM ε σ β) : Prop :=
  ∀ s t, R s t → Beside R Q (x s) (y t)

theorem Beside.bind {R : σ → σ → Prop} {Q : α → β → Prop} {P : γ → δ → Prop}
    {x : EStateM ε σ α} {y : EStateM ε σ β} {f : α → EStateM ε σ γ} {g : β → EStateM ε σ δ}
    (h : Beside R Q (x s) (y t)) (hf : ∀ a b, Q a b → Rel R P (f a) (g b)) :
    Beside R P ((x >>= f) s) ((y >>= g) t) := by
  change Beside R P (EStateM.bind x f s) (EStateM.bind y g t)
  rw [EStateM.bind, EStateM.bind]
  cases hs : x s with
  | ok a s' =>
    cases ht : y t with
    | ok b t' =>
      rw [hs, ht] at h
      exact hf a b h.1 s' t' h.2
    | error e t' =>
      rw [hs, ht] at h
      exact h.elim
  | error e s' =>
    cases ht : y t with
    | ok b t' =>
      rw [hs, ht] at h
      exact h.elim
    | error e' t' =>
      rw [hs, ht] at h
      exact h

namespace Rel

variable {R : σ → σ → Prop} {Q Q' : α → β → Prop} {x : EStateM ε σ α} {y : EStateM ε σ β}

theorem pure {a : α} {b : β} (h : Q a b) :
    Rel R Q (Pure.pure a : EStateM ε σ α) (Pure.pure b) :=
  fun _ _ hr => ⟨h, hr⟩

theorem throw (e e' : ε) :
    Rel R Q (MonadExcept.throw e : EStateM ε σ α) (MonadExcept.throw e') :=
  fun _ _ hr => hr

theorem bind {f : α → EStateM ε σ γ} {g : β → EStateM ε σ δ} {P : γ → δ → Prop}
    (hx : Rel R Q x y) (hf : ∀ a b, Q a b → Rel R P (f a) (g b)) :
    Rel R P (x >>= f) (y >>= g) :=
  fun s t hr => (hx s t hr).bind hf

theorem get : Rel R R (MonadState.get : EStateM ε σ σ) MonadState.get :=
  fun _ _ hr => ⟨hr, hr⟩

theorem set {s t : σ} (h : R s t) :
    Rel R (fun _ _ => True) (MonadState.set s : EStateM ε σ PUnit) (MonadState.set t) :=
  fun _ _ _ => ⟨trivial, h⟩

theorem modify {f g : σ → σ} (h : ∀ s t, R s t → R (f s) (g t)) :
    Rel R (fun _ _ => True) (modify f : EStateM ε σ PUnit) (modify g) :=
  fun s t hr => ⟨trivial, h s t hr⟩

theorem mono (hx : Rel R Q x y) (h : ∀ a b, Q a b → Q' a b) : Rel R Q' x y := by
  intro s t hr
  have hxy := hx s t hr
  cases hs : x s with
  | ok a s' =>
    cases ht : y t with
    | ok b t' =>
      rw [hs, ht] at hxy
      exact ⟨h a b hxy.1, hxy.2⟩
    | error e t' =>
      rw [hs, ht] at hxy
      exact hxy
  | error e s' =>
    cases ht : y t with
    | ok b t' =>
      rw [hs, ht] at hxy
      exact hxy
    | error e' t' =>
      rw [hs, ht] at hxy
      exact hxy

end Rel

end Prismal.Lib
