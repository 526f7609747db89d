import Mathlib.Data.List.Basic

/-- A program that makes calls one after the other, each of them answered, and that may raise. -/
inductive Calls (ι : Type) (ρ : ι → Type) (α : Type)
  | ret (a : α)
  | raise
  | call (i : ι) (next : ρ i → Calls ι ρ α)

namespace Calls

variable {ι : Type} {ρ : ι → Type} {α β γ : Type}

def bind : Calls ι ρ α → (α → Calls ι ρ β) → Calls ι ρ β
  | ret a, f => f a
  | raise, _ => raise
  | call i next, f => call i fun r => (next r).bind f

instance : Monad (Calls ι ρ) where
  pure := ret
  bind := bind

def send (i : ι) : Calls ι ρ (ρ i) := call i ret

def ofOption : Option α → Calls ι ρ α
  | some a => ret a
  | none => raise

def fold (body : β → γ → Calls ι ρ β) (b : β) : List γ → Calls ι ρ β
  | [] => ret b
  | x :: xs => (body b x).bind fun b' => fold body b' xs

def collect (f : γ → Calls ι ρ β) : List γ → Calls ι ρ (List β)
  | [] => ret []
  | x :: xs => (f x).bind fun y => (collect f xs).bind fun ys => ret (y :: ys)

/-- Whatever the answers are, every call satisfies `P` and what is returned satisfies `Q`. -/
def Ensures (P : ι → Prop) : Calls ι ρ α → (α → Prop) → Prop
  | ret a, Q => Q a
  | raise, _ => True
  | call i next, Q => P i ∧ ∀ r, (next r).Ensures P Q

/-- The calls that are made when each gets a given answer. -/
def made (answer : (i : ι) → ρ i) : Calls ι ρ α → List ι
  | ret _ => []
  | raise => []
  | call i next => i :: (next (answer i)).made answer

/-- What is returned when each call gets a given answer, unless the program raises. -/
def result (answer : (i : ι) → ρ i) : Calls ι ρ α → Option α
  | ret a => some a
  | raise => none
  | call i next => (next (answer i)).result answer

variable {P : ι → Prop} {Q : α → Prop}

theorem of_ensures {p : Calls ι ρ α} (h : p.Ensures P Q) (answer : (i : ι) → ρ i) :
    ∀ i ∈ p.made answer, P i := by
  induction p with
  | ret a => simp [made]
  | raise => simp [made]
  | call i next ih => exact List.forall_mem_cons.mpr ⟨h.1, ih _ (h.2 _)⟩

theorem ensures_bind {p : Calls ι ρ α} {f : α → Calls ι ρ β} {R : β → Prop}
    (h : p.Ensures P fun a => (f a).Ensures P R) : (p >>= f).Ensures P R := by
  induction p with
  | ret a => exact h
  | raise => trivial
  | call i next ih => exact ⟨h.1, fun r => ih r (h.2 r)⟩

theorem ensures_mono {p : Calls ι ρ α} {Q' : α → Prop} (h : p.Ensures P Q) (hq : ∀ a, Q a → Q' a) :
    p.Ensures P Q' := by
  induction p with
  | ret a => exact hq a h
  | raise => trivial
  | call i next ih => exact ⟨h.1, fun r => ih r (h.2 r)⟩

theorem ensures_ofOption {o : Option α} (h : ∀ a, o = some a → Q a) :
    (ofOption o : Calls ι ρ α).Ensures P Q := by
  cases o with
  | none => trivial
  | some a => exact h a rfl

theorem ensures_fold {body : β → γ → Calls ι ρ β} {R : β → Prop} {xs : List γ} {b : β} (init : R b)
    (keep : ∀ x ∈ xs, ∀ b, R b → (body b x).Ensures P R) : (fold body b xs).Ensures P R := by
  induction xs generalizing b with
  | nil => exact init
  | cons x xs ih =>
    refine ensures_bind (ensures_mono (keep x List.mem_cons_self b init) fun b' hb => ?_)
    exact ih hb fun y hy => keep y (List.mem_cons_of_mem _ hy)

theorem ensures_collect {f : γ → Calls ι ρ β} {R : β → Prop} {xs : List γ}
    (each : ∀ x ∈ xs, (f x).Ensures P R) : (collect f xs).Ensures P fun ys => ∀ y ∈ ys, R y := by
  induction xs with
  | nil => exact fun y hy => by simp at hy
  | cons x xs ih =>
    refine ensures_bind (ensures_mono (each x List.mem_cons_self) fun y hy => ?_)
    refine ensures_bind (ensures_mono (ih fun z hz => each z (List.mem_cons_of_mem _ hz)) ?_)
    exact fun ys hys => List.forall_mem_cons.mpr ⟨hy, hys⟩

theorem ensures_collect_each {f : γ → Calls ι ρ β} {R : γ → β → Prop} {xs : List γ}
    (each : ∀ x ∈ xs, (f x).Ensures P (R x)) : (collect f xs).Ensures P (List.Forall₂ R xs) := by
  induction xs with
  | nil => exact List.Forall₂.nil
  | cons x xs ih =>
    refine ensures_bind (ensures_mono (each x List.mem_cons_self) fun y hy => ?_)
    refine ensures_bind (ensures_mono (ih fun z hz => each z (List.mem_cons_of_mem _ hz)) ?_)
    exact fun ys hys => .cons hy hys

theorem ensures_collect_map {f : γ → Calls ι ρ β} {g : γ → β} {xs : List γ}
    (each : ∀ x ∈ xs, (f x).Ensures P fun y => y = g x) :
    (collect f xs).Ensures P fun ys => ys = xs.map g := by
  induction xs with
  | nil => exact rfl
  | cons x xs ih =>
    refine ensures_bind (ensures_mono (each x List.mem_cons_self) fun y hy => ?_)
    refine ensures_bind (ensures_mono (ih fun z hz => each z (List.mem_cons_of_mem _ hz)) ?_)
    intro ys hys
    rw [Ensures, hy, hys, List.map_cons]

section Answered

variable {answer : (i : ι) → ρ i} {p : Calls ι ρ α} {f : α → Calls ι ρ β} {i : ι}

theorem result_ofOption (o : Option α) : (ofOption o : Calls ι ρ α).result answer = o := by
  cases o <;> rfl

theorem result_bind : (p >>= f).result answer = (p.result answer).bind fun a => (f a).result answer := by
  induction p with
  | ret a => rfl
  | raise => rfl
  | call i next ih => exact ih _

theorem made_bind :
    (p >>= f).made answer = p.made answer ++ (p.result answer).elim [] fun a => (f a).made answer := by
  induction p with
  | ret a => rfl
  | raise => rfl
  | call i next ih => exact congrArg (i :: ·) (ih _)

theorem mem_made_left (h : i ∈ p.made answer) : i ∈ (p >>= f).made answer := by
  rw [made_bind]
  exact List.mem_append_left _ h

theorem mem_made_right {a : α} (ha : p.result answer = some a) (h : i ∈ (f a).made answer) :
    i ∈ (p >>= f).made answer := by
  rw [made_bind, ha]
  exact List.mem_append_right _ h

theorem result_ofOption_bind {a : α} {o : Option α} (h : o = some a) :
    (ofOption o >>= f).result answer = (f a).result answer := by
  rw [result_bind, result_ofOption, h, Option.bind_some]

theorem mem_made_ofOption {a : α} {o : Option α} (h : o = some a) (hi : i ∈ (f a).made answer) :
    i ∈ (ofOption o >>= f).made answer :=
  mem_made_right (by rw [result_ofOption, h]) hi

/-- A loop whose rounds leave its state as it is. -/
theorem result_fold {body : β → γ → Calls ι ρ β} {b : β} {xs : List γ}
    (idle : ∀ x ∈ xs, (body b x).result answer = some b) : (fold body b xs).result answer = some b := by
  induction xs with
  | nil => rfl
  | cons x xs ih =>
    have first := idle x List.mem_cons_self
    have rest := ih fun y hy => idle y (List.mem_cons_of_mem x hy)
    exact result_bind.trans (by rw [first, Option.bind_some, rest])

/-- The rounds before one that is of interest leave the state as it is. -/
theorem mem_made_fold {body : β → γ → Calls ι ρ β} {b : β} {xs : List γ} {x : γ} (hx : x ∈ xs)
    (idle : ∀ y ∈ xs, y ≠ x → (body b y).result answer = some b) (h : i ∈ (body b x).made answer) :
    i ∈ (fold body b xs).made answer := by
  induction xs with
  | nil => cases hx
  | cons y xs ih =>
    by_cases same : y = x
    · subst same
      exact mem_made_left h
    · have later : x ∈ xs := (List.mem_cons.mp hx).resolve_left fun he => same he.symm
      exact mem_made_right (idle y List.mem_cons_self same)
        (ih later fun z hz => idle z (List.mem_cons_of_mem y hz))

variable (answer) in
theorem result_collect (f : γ → Calls ι ρ β) {xs : List γ}
    (each : ∀ x ∈ xs, ((f x).result answer).isSome) :
    ∃ ys, (collect f xs).result answer = some ys ∧
      List.Forall₂ (fun x y => (f x).result answer = some y) xs ys := by
  induction xs with
  | nil => exact ⟨[], rfl, .nil⟩
  | cons x xs ih =>
    obtain ⟨y, hy⟩ := Option.isSome_iff_exists.mp (each x List.mem_cons_self)
    obtain ⟨ys, hys, all⟩ := ih fun z hz => each z (List.mem_cons_of_mem x hz)
    refine ⟨y :: ys, ?_, .cons hy all⟩
    apply result_bind.trans
    rw [hy, Option.bind_some]
    apply result_bind.trans
    rw [hys]
    rfl

theorem result_collect_map {f : γ → Calls ι ρ β} {g : γ → β} {xs : List γ}
    (each : ∀ x ∈ xs, (f x).result answer = some (g x)) :
    (collect f xs).result answer = some (xs.map g) := by
  induction xs with
  | nil => rfl
  | cons x xs ih =>
    have rest := ih fun z hz => each z (List.mem_cons_of_mem x hz)
    apply result_bind.trans
    rw [each x List.mem_cons_self, Option.bind_some]
    apply result_bind.trans
    rw [rest]
    rfl

theorem mem_made_collect {f : γ → Calls ι ρ β} {xs : List γ}
    (each : ∀ x ∈ xs, ((f x).result answer).isSome) {x : γ} (hx : x ∈ xs)
    (h : i ∈ (f x).made answer) : i ∈ (collect f xs).made answer := by
  induction xs with
  | nil => cases hx
  | cons z xs ih =>
    rcases List.mem_cons.mp hx with rfl | hx
    · exact mem_made_left h
    · obtain ⟨y, hy⟩ := Option.isSome_iff_exists.mp (each z List.mem_cons_self)
      exact mem_made_right hy (mem_made_left
        (ih (fun w hw => each w (List.mem_cons_of_mem z hw)) hx))

end Answered

/-- A loop that makes no call. -/
theorem collect_ofOption (f : γ → Option β) (xs : List γ) :
    collect (fun x => ofOption (f x)) xs = (ofOption (xs.mapM f) : Calls ι ρ (List β)) := by
  induction xs with
  | nil => rfl
  | cons x xs ih =>
    rw [collect, ih, List.mapM_cons]
    cases f x with
    | none => rfl
    | some y => cases xs.mapM f <;> rfl

theorem ofOption_bind_ret (o : Option α) (g : α → β) :
    ((ofOption o : Calls ι ρ α) >>= fun a => pure (g a)) = ofOption (o.map g) := by
  cases o <;> rfl

/-- Whatever the answers are, every call satisfies `P`. -/
def Only (P : ι → Prop) (p : Calls ι ρ α) : Prop := p.Ensures P fun _ => True

theorem Only.ret (a : α) : Only P (pure a : Calls ι ρ α) := trivial

theorem Only.raise : Only P (raise : Calls ι ρ α) := trivial

theorem Only.send {i : ι} (h : P i) : Only P (send i : Calls ι ρ (ρ i)) := ⟨h, fun _ => trivial⟩

theorem Only.any (p : Calls ι ρ α) : Only (fun _ => True) p := by
  induction p with
  | ret a => trivial
  | raise => trivial
  | call i next ih => exact ⟨trivial, ih⟩

theorem Only.ofOption (o : Option α) : Only P (ofOption o : Calls ι ρ α) :=
  ensures_ofOption fun _ _ => trivial

theorem Only.bind {p : Calls ι ρ α} {f : α → Calls ι ρ β} (h : Only P p)
    (next : ∀ a, Only P (f a)) : Only P (p >>= f) :=
  ensures_bind (ensures_mono h fun a _ => next a)

theorem Only.some_bind {o : Option α} {f : α → Calls ι ρ β}
    (next : ∀ a, o = some a → Only P (f a)) : Only P (Calls.ofOption o >>= f) :=
  ensures_bind (ensures_ofOption next)

theorem Only.mono {P' : ι → Prop} {p : Calls ι ρ α} (h : Only P p) (imp : ∀ i, P i → P' i) :
    Only P' p := by
  induction p with
  | ret a => trivial
  | raise => trivial
  | call i next ih => exact ⟨imp i h.1, fun r => ih r (h.2 r)⟩

theorem Only.collect {f : γ → Calls ι ρ β} {xs : List γ} (each : ∀ x ∈ xs, Only P (f x)) :
    Only P (collect f xs) :=
  ensures_mono (ensures_collect each) fun _ _ => trivial

theorem Only.fold {body : β → γ → Calls ι ρ β} {xs : List γ} (b : β)
    (each : ∀ x ∈ xs, ∀ b, Only P (body b x)) : Only P (fold body b xs) :=
  ensures_fold trivial fun x hx b _ => each x hx b

end Calls
