import Mathlib.Data.List.Basic

/-- A program over a store: it issues statements, which may fail, and reads the state in between.
The statements of one `issue` go out one after the other; they stand together where a reader wants
to speak about stopping between two such groups. -/
inductive Prog (σ ι α : Type)
  | ret (a : α)
  | issue (group : List ι) (next : Prog σ ι α)
  | read (next : σ → Prog σ ι α)

namespace Prog

variable {σ ι α β γ : Type}

def bind : Prog σ ι α → (α → Prog σ ι β) → Prog σ ι β
  | ret a, f => f a
  | issue group next, f => issue group (next.bind f)
  | read next, f => read fun s => (next s).bind f

instance : Monad (Prog σ ι) where
  pure := ret
  bind := bind

def exec (group : List ι) : Prog σ ι Unit := issue group (ret ())

def get (f : σ → α) : Prog σ ι α := read fun s => ret (f s)

def forEach (body : γ → Prog σ ι Unit) : List γ → Prog σ ι Unit
  | [] => ret ()
  | x :: xs => (body x).bind fun _ => forEach body xs

def fold (body : β → γ → Prog σ ι β) (b : β) : List γ → Prog σ ι β
  | [] => ret b
  | x :: xs => (body b x).bind fun b' => fold body b' xs

section Semantics

variable (step : ι → σ → Option σ)

def execAll : List ι → σ → Option σ
  | [], s => some s
  | i :: rest, s => (step i s).bind (execAll rest)

/-- `none` if a statement fails. -/
def run : Prog σ ι α → σ → Option (α × σ)
  | ret a, s => some (a, s)
  | issue group next, s => (execAll step group s).bind next.run
  | read next, s => (next s).run s

/-- The state after the first `n` statements, or at the end if there are fewer. -/
def runFor : Prog σ ι α → Nat → σ → Option σ
  | ret _, _, s => some s
  | issue group next, n, s =>
    if n < group.length then execAll step (group.take n) s
    else (execAll step group s).bind (next.runFor (n - group.length))
  | read next, n, s => (next s).runFor n s

/-- The states the store can be left in when the process stops: after any prefix of the statements
it issues. -/
inductive StopsAt : Prog σ ι α → σ → σ → Prop
  | here {p : Prog σ ι α} {s : σ} : StopsAt p s s
  | read {next : σ → Prog σ ι α} {s s' : σ} (h : StopsAt (next s) s s') : StopsAt (.read next) s s'
  | within {group done : List ι} {next : Prog σ ι α} {s s' : σ} (hp : done <+: group)
      (h : execAll step done s = some s') : StopsAt (.issue group next) s s'
  | later {group : List ι} {next : Prog σ ι α} {s s₁ s' : σ}
      (hg : execAll step group s = some s₁) (h : StopsAt next s₁ s') :
      StopsAt (.issue group next) s s'

/-- The same, with no group cut in two. -/
inductive PausesAt : Prog σ ι α → σ → σ → Prop
  | here {p : Prog σ ι α} {s : σ} : PausesAt p s s
  | read {next : σ → Prog σ ι α} {s s' : σ} (h : PausesAt (next s) s s') :
      PausesAt (.read next) s s'
  | later {group : List ι} {next : Prog σ ι α} {s s₁ s' : σ}
      (hg : execAll step group s = some s₁) (h : PausesAt next s₁ s') :
      PausesAt (.issue group next) s s'

/-- Every statement issued satisfies `P`, and if the program completes, `Q` holds. -/
def Obeys (P : ι → Prop) : Prog σ ι α → σ → (α → σ → Prop) → Prop
  | ret a, s, Q => Q a s
  | issue group next, s, Q =>
    (∀ i ∈ group, P i) ∧ ∀ s', execAll step group s = some s' → next.Obeys P s' Q
  | read next, s, Q => (next s).Obeys P s Q

/-- Every statement issued satisfies `P` and leaves the store as it is; the result is `a`. -/
def Idles (P : ι → Prop) : Prog σ ι α → σ → α → Prop
  | ret b, _, a => b = a
  | issue group next, s, a => (∀ i ∈ group, P i ∧ step i s = some s) ∧ next.Idles P s a
  | read next, s, a => (next s).Idles P s a

/-- The program completes with `Q`, and `I` holds wherever it pauses. -/
def Completes (I : σ → Prop) : Prog σ ι α → σ → (α → σ → Prop) → Prop
  | ret a, s, Q => I s ∧ Q a s
  | issue group next, s, Q =>
    I s ∧ ∃ s', execAll step group s = some s' ∧ next.Completes I s' Q
  | read next, s, Q => (next s).Completes I s Q

end Semantics

variable {step : ι → σ → Option σ}

theorem execAll_append (g₁ g₂ : List ι) (s : σ) :
    execAll step (g₁ ++ g₂) s = (execAll step g₁ s).bind (execAll step g₂) := by
  induction g₁ generalizing s with
  | nil => rfl
  | cons i rest ih =>
    simp only [List.cons_append, execAll]
    cases step i s with
    | none => rfl
    | some s' => exact ih s'

theorem stopsAt_of_run {p : Prog σ ι α} {s s' : σ} {a : α} (h : p.run step s = some (a, s')) :
    StopsAt step p s s' := by
  induction p generalizing s with
  | ret b =>
    cases Option.some.inj h
    exact .here
  | issue group next ih =>
    obtain ⟨s₁, hg, hn⟩ := Option.bind_eq_some_iff.mp h
    exact .later hg (ih hn)
  | read next ih => exact .read (ih s h)

theorem pausesAt_of_run {p : Prog σ ι α} {s s' : σ} {a : α} (h : p.run step s = some (a, s')) :
    PausesAt step p s s' := by
  induction p generalizing s with
  | ret b =>
    cases Option.some.inj h
    exact .here
  | issue group next ih =>
    obtain ⟨s₁, hg, hn⟩ := Option.bind_eq_some_iff.mp h
    exact .later hg (ih hn)
  | read next ih => exact .read (ih s h)

theorem stopsAt_of_runFor {p : Prog σ ι α} {n : Nat} {s s' : σ}
    (h : p.runFor step n s = some s') : StopsAt step p s s' := by
  induction p generalizing n s with
  | ret a =>
    cases Option.some.inj h
    exact .here
  | issue group next ih =>
    unfold runFor at h
    split at h
    · exact .within (List.take_prefix n group) h
    · obtain ⟨s₁, hg, hn⟩ := Option.bind_eq_some_iff.mp h
      exact .later hg (ih hn)
  | read next ih => exact .read (ih s h)

section Obeys

variable {P : ι → Prop}

theorem obeys_mono {p : Prog σ ι α} {s : σ} {Q Q' : α → σ → Prop} (h : p.Obeys step P s Q)
    (hq : ∀ a s', Q a s' → Q' a s') : p.Obeys step P s Q' := by
  induction p generalizing s with
  | ret a => exact hq a s h
  | issue group next ih => exact ⟨h.1, fun s' hs => ih (h.2 s' hs)⟩
  | read next ih => exact ih s h

theorem obeys_and {p : Prog σ ι α} {s : σ} {Q Q' : α → σ → Prop} (h : p.Obeys step P s Q)
    (h' : p.Obeys step P s Q') : p.Obeys step P s fun a s' => Q a s' ∧ Q' a s' := by
  induction p generalizing s with
  | ret a => exact ⟨h, h'⟩
  | issue group next ih => exact ⟨h.1, fun s' hs => ih (h.2 s' hs) (h'.2 s' hs)⟩
  | read next ih => exact ih s h h'

theorem obeys_bind {p : Prog σ ι α} {f : α → Prog σ ι β} {s : σ} {Q : β → σ → Prop}
    (h : p.Obeys step P s fun a s' => (f a).Obeys step P s' Q) :
    (p.bind f).Obeys step P s Q := by
  induction p generalizing s with
  | ret a => exact h
  | issue group next ih => exact ⟨h.1, fun s' hs => ih (h.2 s' hs)⟩
  | read next ih => exact ih s h

/-- `Inv rest b s`: what holds before the elements `rest` are processed. -/
theorem obeys_fold {body : β → γ → Prog σ ι β} (Inv : List γ → β → σ → Prop) {xs : List γ} {b : β}
    {s : σ} (init : Inv xs b s)
    (keep : ∀ x rest b s, Inv (x :: rest) b s → (body b x).Obeys step P s (Inv rest)) :
    (fold body b xs).Obeys step P s (Inv []) := by
  induction xs generalizing b s with
  | nil => exact init
  | cons x xs ih => exact obeys_bind (obeys_mono (keep x xs b s init) fun b' s' h => ih h)

theorem obeys_forEach {body : γ → Prog σ ι Unit} (Inv : List γ → σ → Prop) {xs : List γ} {s : σ}
    (init : Inv xs s)
    (keep : ∀ x rest s, Inv (x :: rest) s → (body x).Obeys step P s fun _ => Inv rest) :
    (forEach body xs).Obeys step P s fun _ => Inv [] := by
  induction xs generalizing s with
  | nil => exact init
  | cons x xs ih => exact obeys_bind (obeys_mono (keep x xs s init) fun _ s' h => ih h)

/-- The loop rules for a condition on values alone. -/
theorem obeys_fold_mem {body : β → γ → Prog σ ι β} (V : β → Prop) {xs : List γ} {b : β} {s : σ}
    (init : V b)
    (keep : ∀ x ∈ xs, ∀ b s, V b → (body b x).Obeys step P s fun b' _ => V b') :
    (fold body b xs).Obeys step P s fun b' _ => V b' := by
  refine obeys_mono (obeys_fold (fun rest b _ => V b ∧ rest ⊆ xs) ⟨init, List.Subset.refl _⟩ ?_)
    fun b' _ h => h.1
  rintro x rest b s ⟨hb, hsub⟩
  refine obeys_mono (keep x (hsub List.mem_cons_self) b s hb) fun b' _ h => ⟨h, ?_⟩
  exact fun y hy => hsub (List.mem_cons_of_mem _ hy)

theorem obeys_forEach_mem {body : γ → Prog σ ι Unit} {xs : List γ} {s : σ}
    (keep : ∀ x ∈ xs, ∀ s, (body x).Obeys step P s fun _ _ => True) :
    (forEach body xs).Obeys step P s fun _ _ => True := by
  refine obeys_mono (obeys_forEach (fun rest _ => rest ⊆ xs) (List.Subset.refl _) ?_)
    fun _ _ _ => trivial
  intro x rest s hsub
  refine obeys_mono (keep x (hsub List.mem_cons_self) s) fun _ _ _ y hy => ?_
  exact hsub (List.mem_cons_of_mem _ hy)

theorem obeys_forEach_exec {groups : List (List ι)} {s : σ} {Q : σ → Prop}
    (hP : ∀ group ∈ groups, ∀ i ∈ group, P i)
    (hQ : ∀ s', execAll step groups.flatten s = some s' → Q s') :
    (forEach exec groups).Obeys step P s fun _ => Q := by
  induction groups generalizing s with
  | nil => exact hQ s rfl
  | cons group groups ih =>
    refine ⟨hP group List.mem_cons_self, fun s₁ h₁ => ?_⟩
    refine ih (fun g hg => hP g (List.mem_cons_of_mem _ hg)) fun s' h' => hQ s' ?_
    rw [List.flatten_cons, execAll_append, h₁, Option.bind_some, h']

theorem obeys_run {p : Prog σ ι α} {s s' : σ} {a : α} {Q : α → σ → Prop}
    (h : p.Obeys step P s Q) (hr : p.run step s = some (a, s')) : Q a s' := by
  induction p generalizing s with
  | ret b =>
    cases Option.some.inj hr
    exact h
  | issue group next ih =>
    obtain ⟨s₁, hg, hn⟩ := Option.bind_eq_some_iff.mp hr
    exact ih (h.2 s₁ hg) hn
  | read next ih => exact ih s h hr

/-- A preorder every allowed statement respects is respected by every state the process can be
left in. -/
theorem stopsAt_of_obeys (R : σ → σ → Prop) (refl : ∀ s, R s s)
    (trans : ∀ s₁ s₂ s₃, R s₁ s₂ → R s₂ s₃ → R s₁ s₃)
    (hstep : ∀ i s s', P i → step i s = some s' → R s s') {p : Prog σ ι α} {s s' : σ}
    {Q : α → σ → Prop} (h : p.Obeys step P s Q) (hs : StopsAt step p s s') : R s s' := by
  have all : ∀ (group : List ι) (s s' : σ), (∀ i ∈ group, P i) →
      execAll step group s = some s' → R s s' := by
    intro group
    induction group with
    | nil =>
      intro s s' _ he
      cases Option.some.inj he
      exact refl s
    | cons i rest ih =>
      intro s s' hP he
      obtain ⟨s₁, hi, hrest⟩ := Option.bind_eq_some_iff.mp he
      exact trans s s₁ s' (hstep i s s₁ (hP i List.mem_cons_self) hi)
        (ih s₁ s' (fun j hj => hP j (List.mem_cons_of_mem _ hj)) hrest)
  induction hs with
  | here => exact refl _
  | read _ ih => exact ih h
  | within hp he => exact all _ _ _ (fun i hi => h.1 i (hp.subset hi)) he
  | later hg _ ih => exact trans _ _ _ (all _ _ _ h.1 hg) (ih (h.2 _ hg))

end Obeys

section Idles

variable {P : ι → Prop} {s : σ}

theorem idles_exec {i : ι} (hP : P i) (same : step i s = some s) :
    (exec [i]).Idles step P s () := by
  refine ⟨fun j hj => ?_, rfl⟩
  rw [List.mem_singleton.mp hj]
  exact ⟨hP, same⟩

theorem idles_bind {p : Prog σ ι α} {f : α → Prog σ ι β} {a : α} {b : β} (h : p.Idles step P s a)
    (next : (f a).Idles step P s b) : (p.bind f).Idles step P s b := by
  induction p with
  | ret c =>
    cases h
    exact next
  | issue group rest ih => exact ⟨h.1, ih h.2⟩
  | read rest ih => exact ih s h

theorem idles_forEach {body : γ → Prog σ ι Unit} {xs : List γ}
    (h : ∀ x ∈ xs, (body x).Idles step P s ()) : (forEach body xs).Idles step P s () := by
  induction xs with
  | nil => rfl
  | cons x xs ih =>
    apply idles_bind (h x List.mem_cons_self)
    exact ih fun y hy => h y (List.mem_cons_of_mem x hy)

theorem idles_fold {body : β → γ → Prog σ ι β} {xs : List γ} {b : β}
    (h : ∀ x ∈ xs, (body b x).Idles step P s b) : (fold body b xs).Idles step P s b := by
  induction xs with
  | nil => rfl
  | cons x xs ih =>
    apply idles_bind (h x List.mem_cons_self)
    exact ih fun y hy => h y (List.mem_cons_of_mem x hy)

theorem idles_run {p : Prog σ ι α} {a : α} (h : p.Idles step P s a) :
    p.run step s = some (a, s) := by
  induction p with
  | ret b =>
    cases h
    rfl
  | issue group next ih =>
    have all : ∀ g : List ι, (∀ i ∈ g, P i ∧ step i s = some s) → execAll step g s = some s := by
      intro g
      induction g with
      | nil => exact fun _ => rfl
      | cons i g ihg =>
        intro hg
        rw [execAll, (hg i List.mem_cons_self).2]
        exact ihg fun j hj => hg j (List.mem_cons_of_mem i hj)
    rw [run, all group h.1]
    exact ih h.2
  | read next ih => exact ih s h

end Idles

section Completes

variable {I : σ → Prop}

theorem completes_mono {p : Prog σ ι α} {s : σ} {Q Q' : α → σ → Prop}
    (h : p.Completes step I s Q) (hq : ∀ a s', Q a s' → Q' a s') : p.Completes step I s Q' := by
  induction p generalizing s with
  | ret a => exact ⟨h.1, hq a s h.2⟩
  | issue group next ih =>
    obtain ⟨hi, s', hs, hn⟩ := h
    exact ⟨hi, s', hs, ih hn⟩
  | read next ih => exact ih s h

theorem completes_bind {p : Prog σ ι α} {f : α → Prog σ ι β} {s : σ} {Q : β → σ → Prop}
    (h : p.Completes step I s fun a s' => (f a).Completes step I s' Q) :
    (p.bind f).Completes step I s Q := by
  induction p generalizing s with
  | ret a => exact h.2
  | issue group next ih =>
    obtain ⟨hi, s', hs, hn⟩ := h
    exact ⟨hi, s', hs, ih hn⟩
  | read next ih => exact ih s h

theorem completes_exec {group : List ι} {s s' : σ} {Q : Unit → σ → Prop} (hi : I s)
    (he : execAll step group s = some s') (hi' : I s') (hq : Q () s') :
    (exec group).Completes step I s Q := ⟨hi, s', he, hi', hq⟩

theorem completes_fold {body : β → γ → Prog σ ι β} (Inv : List γ → β → σ → Prop) {xs : List γ}
    {b : β} {s : σ} (init : Inv xs b s) (hI : ∀ xs b s, Inv xs b s → I s)
    (keep : ∀ x rest b s, Inv (x :: rest) b s → (body b x).Completes step I s (Inv rest)) :
    (fold body b xs).Completes step I s (Inv []) := by
  induction xs generalizing b s with
  | nil => exact ⟨hI _ _ _ init, init⟩
  | cons x xs ih => exact completes_bind (completes_mono (keep x xs b s init) fun b' s' h => ih h)

theorem completes_forEach {body : γ → Prog σ ι Unit} (Inv : List γ → σ → Prop) {xs : List γ}
    {s : σ} (init : Inv xs s) (hI : ∀ xs s, Inv xs s → I s)
    (keep : ∀ x rest s, Inv (x :: rest) s → (body x).Completes step I s fun _ => Inv rest) :
    (forEach body xs).Completes step I s fun _ => Inv [] := by
  induction xs generalizing s with
  | nil => exact ⟨hI _ _ init, init⟩
  | cons x xs ih => exact completes_bind (completes_mono (keep x xs s init) fun _ s' h => ih h)

theorem completes_run {p : Prog σ ι α} {s : σ} {Q : α → σ → Prop}
    (h : p.Completes step I s Q) : ∃ a s', p.run step s = some (a, s') ∧ Q a s' := by
  induction p generalizing s with
  | ret a => exact ⟨a, s, rfl, h.2⟩
  | issue group next ih =>
    obtain ⟨-, s₁, hg, hn⟩ := h
    obtain ⟨a, s', hr, hq⟩ := ih hn
    exact ⟨a, s', by rw [run, hg, Option.bind_some, hr], hq⟩
  | read next ih => exact ih s h

theorem pausesAt_of_completes {p : Prog σ ι α} {s s' : σ} {Q : α → σ → Prop}
    (h : p.Completes step I s Q) (hp : PausesAt step p s s') : I s' := by
  induction hp with
  | @here p s =>
    induction p generalizing s with
    | ret a => exact h.1
    | issue group next ih => exact h.1
    | read next ih => exact ih s h
  | read _ ih => exact ih h
  | later hg _ ih =>
    obtain ⟨-, s₁, hg', hn⟩ := h
    cases Option.some.inj (hg.symm.trans hg')
    exact ih hn

end Completes

end Prog
