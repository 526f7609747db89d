import Harpia.Lib.Calls

/-- A program that changes a state as it goes and may stop with an error; what it has changed by
then stays. -/
def Attempt (σ α : Type) : Type := σ → Option α × σ

namespace Attempt

variable {σ α β γ : Type}

def ret (a : α) : Attempt σ α := fun s => (some a, s)

def fail : Attempt σ α := fun s => (none, s)

def bind (p : Attempt σ α) (f : α → Attempt σ β) : Attempt σ β := fun s =>
  match p s with
  | (some a, s') => f a s'
  | (none, s') => (none, s')

instance : Monad (Attempt σ) where
  pure := ret
  bind := bind

def ofOption : Option α → Attempt σ α
  | some a => ret a
  | none => fail

/-- An error of `p` is not looked at. -/
def tried (p : Attempt σ α) : Attempt σ Unit := fun s => (some (), (p s).2)

def each (f : γ → Attempt σ Unit) : List γ → Attempt σ Unit
  | [] => ret ()
  | x :: xs => bind (f x) fun _ => each f xs

/-- Started where `P` holds, the program ends with `Q` of its result, or fails and leaves `X`. -/
structure Triple (P : σ → Prop) (p : Attempt σ α) (Q : α → σ → Prop) (X : σ → Prop) : Prop where
  ends : ∀ {s a}, P s → (p s).1 = some a → Q a (p s).2
  fails : ∀ {s}, P s → (p s).1 = none → X (p s).2

section Rules

variable {P P' X : σ → Prop} {Q Q' : α → σ → Prop} {p : Attempt σ α}

theorem triple_ret {a : α} (h : ∀ s, P s → Q a s) : Triple P (ret a) Q X where
  ends hs he := by
    cases he
    exact h _ hs
  fails _ he := by cases he

theorem triple_fail (h : ∀ s, P s → X s) : Triple P (fail : Attempt σ α) Q X where
  ends _ he := by cases he
  fails hs _ := h _ hs

theorem triple_ofOption {o : Option α} (some_ : ∀ a s, o = some a → P s → Q a s)
    (none_ : ∀ s, P s → X s) : Triple P (ofOption o) Q X := by
  cases o with
  | none => exact triple_fail none_
  | some a => exact triple_ret fun s hs => some_ a s rfl hs

theorem triple_bind {f : α → Attempt σ β} {R : β → σ → Prop} (first : Triple P p Q X)
    (next : ∀ a, Triple (Q a) (f a) R X) : Triple P (bind p f) R X := by
  have split_ : ∀ s, P s → (∃ a, (p s).1 = some a ∧ Q a (p s).2 ∧ bind p f s = f a (p s).2) ∨
      X (p s).2 ∧ bind p f s = (none, (p s).2) := by
    intro s hs
    cases hp : p s with
    | mk result s' =>
      cases result with
      | none => exact .inr ⟨by simpa [hp] using first.fails hs (by rw [hp]), by simp [bind, hp]⟩
      | some a =>
        exact .inl ⟨a, rfl, by simpa [hp] using first.ends hs (by rw [hp]), by simp [bind, hp]⟩
  refine ⟨fun {s b} hs he => ?_, fun {s} hs he => ?_⟩
  · obtain ⟨a, _, hq, same⟩ | ⟨_, same⟩ := split_ s hs
    · rw [same] at he ⊢
      exact (next a).ends hq he
    · rw [same] at he
      cases he
  · obtain ⟨a, _, hq, same⟩ | ⟨hx, same⟩ := split_ s hs
    · rw [same] at he ⊢
      exact (next a).fails hq he
    · rw [same]
      exact hx

theorem triple_some_bind {o : Option α} {f : α → Attempt σ β} {R : β → σ → Prop}
    (next : ∀ a, o = some a → Triple P (f a) R X) (none_ : ∀ s, P s → X s) :
    Triple P (bind (ofOption o) f) R X := by
  cases o with
  | none =>
    have same : bind (ofOption none) f = fail := rfl
    rw [same]
    exact triple_fail none_
  | some a => exact next a rfl

theorem triple_mono (h : Triple P' p Q' X) (pre : ∀ s, P s → P' s)
    (post : ∀ a s, Q' a s → Q a s) : Triple P p Q X where
  ends hs he := post _ _ (h.ends (pre _ hs) he)
  fails hs he := h.fails (pre _ hs) he

theorem triple_exists {ι : Type} {P : ι → σ → Prop} (h : ∀ i, Triple (P i) p Q X) :
    Triple (fun s => ∃ i, P i s) p Q X where
  ends hs he := (h _).ends hs.choose_spec he
  fails hs he := (h _).fails hs.choose_spec he

theorem triple_pure {φ : Prop} (h : φ → Triple P p Q X) : Triple (fun s => φ ∧ P s) p Q X where
  ends hs he := (h hs.1).ends hs.2 he
  fails hs he := (h hs.1).fails hs.2 he

theorem triple_tried {R : Unit → σ → Prop} (h : Triple P p Q X) (ended : ∀ a s, Q a s → R () s)
    (failed : ∀ s, X s → R () s) : Triple P (tried p) R X where
  ends {s _} hs _ := by
    cases hp : (p s).1 with
    | none => exact failed _ (h.fails hs hp)
    | some a => exact ended a _ (h.ends hs hp)
  fails _ he := by cases he

/-- `I` of what the loop has gone through by then. -/
theorem triple_each {f : γ → Attempt σ Unit} {xs : List γ} (I : List γ → σ → Prop)
    (step : ∀ done x rest, xs = done ++ x :: rest →
      Triple (I done) (f x) (fun _ => I (done ++ [x])) X) :
    Triple (I []) (each f xs) (fun _ => I xs) X := by
  suffices from_ : ∀ rest done, xs = done ++ rest → Triple (I done) (each f rest) (fun _ => I xs) X
    from from_ xs [] rfl
  intro rest
  induction rest with
  | nil =>
    intro done all
    rw [List.append_nil] at all
    exact triple_ret fun s hs => all ▸ hs
  | cons x rest ih =>
    intro done all
    refine triple_bind (step done x rest all) fun _ => ih (done ++ [x]) ?_
    rw [all, List.append_assoc, List.singleton_append]

end Rules

end Attempt

namespace Calls

variable {ι : Type} {ρ : ι → Type} {σ α β γ : Type}

/-- Each call is answered from the state, and changes it; a call that is refused ends the program. -/
def attempt (exec : (i : ι) → σ → Option (ρ i × σ)) : Calls ι ρ α → Attempt σ α
  | ret a, s => (some a, s)
  | raise, s => (none, s)
  | call i next, s =>
    match exec i s with
    | some r => (next r.1).attempt exec r.2
    | none => (none, s)

variable {exec : (i : ι) → σ → Option (ρ i × σ)} {P : ι → Prop} {Q : α → Prop} {R : σ → σ → Prop}

/-- What every call of a program keeps, the program keeps, whether or not it ends with an error. -/
theorem attempt_keeps (refl : ∀ s, R s s) (trans : ∀ {a b c}, R a b → R b c → R a c)
    (step : ∀ {i s r s'}, P i → exec i s = some (r, s') → R s s') {p : Calls ι ρ α}
    (h : p.Ensures P Q) (s : σ) : R s (p.attempt exec s).2 := by
  induction p generalizing s with
  | ret a => exact refl s
  | raise => exact refl s
  | call i next ih =>
    unfold attempt
    cases answered : exec i s with
    | none => exact refl s
    | some r => exact trans (step h.1 answered) (ih r.1 (h.2 r.1) r.2)

/-- A program that ends where calls may fail ends in the same way where they do not. -/
theorem attempt_of_ended {exec' : (i : ι) → σ → Option (ρ i × σ)}
    (agree : ∀ i s out, exec' i s = some out → exec i s = some out) {p : Calls ι ρ α} {s : σ}
    (ended : (p.attempt exec' s).1.isSome) : p.attempt exec s = p.attempt exec' s := by
  induction p generalizing s with
  | ret a => rfl
  | raise => cases ended
  | call i next ih =>
    unfold attempt at ended ⊢
    cases answered : exec' i s with
    | none =>
      rw [answered] at ended
      cases ended
    | some r =>
      rw [answered] at ended
      rw [agree i s r answered]
      exact ih r.1 ended

theorem attempt_ensures {p : Calls ι ρ α} (h : p.Ensures P Q) {s : σ} {a : α}
    (ended : (p.attempt exec s).1 = some a) : Q a := by
  induction p generalizing s with
  | ret b =>
    cases ended
    exact h
  | raise => cases ended
  | call i next ih =>
    unfold attempt at ended
    cases answered : exec i s with
    | none => simp [answered] at ended
    | some r =>
      rw [answered] at ended
      exact ih r.1 (h.2 r.1) ended

/-- What the program returns if its calls are answered in some way. -/
def CanReturn : Calls ι ρ α → α → Prop
  | ret a, b => a = b
  | raise, _ => False
  | call _ next, b => ∃ r, (next r).CanReturn b

theorem canReturn_of_attempt {p : Calls ι ρ α} {s : σ} {a : α}
    (ended : (p.attempt exec s).1 = some a) : p.CanReturn a := by
  induction p generalizing s with
  | ret b => exact Option.some.inj ended
  | raise => cases ended
  | call i next ih =>
    unfold attempt at ended
    cases answered : exec i s with
    | none => simp [answered] at ended
    | some r =>
      rw [answered] at ended
      exact ⟨r.1, ih r.1 ended⟩

theorem canReturn_ensures {p : Calls ι ρ α} {a : α} (h : p.CanReturn a) (all : p.Ensures P Q) :
    Q a := by
  induction p with
  | ret b =>
    cases h
    exact all
  | raise => exact h.elim
  | call i next ih =>
    obtain ⟨r, h⟩ := h
    exact ih r h (all.2 r)

theorem canReturn_bind {p : Calls ι ρ α} {f : α → Calls ι ρ β} {b : β} (h : (p.bind f).CanReturn b) :
    ∃ a, p.CanReturn a ∧ (f a).CanReturn b := by
  induction p with
  | ret a => exact ⟨a, rfl, h⟩
  | raise => exact h.elim
  | call i next ih =>
    obtain ⟨r, h⟩ := h
    obtain ⟨a, ha, hb⟩ := ih r h
    exact ⟨a, ⟨r, ha⟩, hb⟩

theorem canReturn_collect {f : γ → Calls ι ρ β} {xs : List γ} {ys : List β}
    (h : (collect f xs).CanReturn ys) : List.Forall₂ (fun x y => (f x).CanReturn y) xs ys := by
  induction xs generalizing ys with
  | nil =>
    cases h
    exact .nil
  | cons x xs ih =>
    obtain ⟨y, hy, h⟩ := canReturn_bind h
    obtain ⟨rest, hrest, h⟩ := canReturn_bind h
    cases h
    exact .cons hy (ih hrest)

theorem attempt_bind (p : Calls ι ρ α) (f : α → Calls ι ρ β) :
    (p.bind f).attempt exec = Attempt.bind (p.attempt exec) fun a => (f a).attempt exec := by
  funext s
  induction p generalizing s with
  | ret a => rfl
  | raise => rfl
  | call i next ih =>
    have pushed : ((call i next).bind f).attempt exec s =
        match exec i s with
        | some r => ((next r.1).bind f).attempt exec r.2
        | none => (none, s) := by simp only [Calls.bind, attempt]
    rw [pushed, Attempt.bind, attempt]
    cases exec i s with
    | none => rfl
    | some r => exact ih r.1 r.2

section Rules

open Attempt

variable {P Y : σ → Prop} {Q : α → σ → Prop}

theorem triple_bind {p : Calls ι ρ α} {f : α → Calls ι ρ β} {R : β → σ → Prop}
    (first : Triple P (p.attempt exec) Q Y) (next : ∀ a, Triple (Q a) ((f a).attempt exec) R Y) :
    Triple P ((p >>= f).attempt exec) R Y := by
  have same : (p >>= f).attempt exec = Attempt.bind (p.attempt exec) fun a => (f a).attempt exec :=
    attempt_bind p f
  rw [same]
  exact Attempt.triple_bind first next

theorem triple_ofOption {o : Option α} (some_ : ∀ a s, o = some a → P s → Q a s)
    (none_ : ∀ s, P s → Y s) : Triple P ((ofOption o : Calls ι ρ α).attempt exec) Q Y := by
  cases o with
  | none => exact triple_fail none_
  | some a => exact triple_ret fun s hs => some_ a s rfl hs

theorem triple_some_bind {o : Option α} {f : α → Calls ι ρ β} {R : β → σ → Prop}
    (next : ∀ a, o = some a → Triple P ((f a).attempt exec) R Y) (none_ : ∀ s, P s → Y s) :
    Triple P ((Calls.ofOption o >>= f).attempt exec) R Y := by
  cases o with
  | none => exact triple_fail none_
  | some a => exact next a rfl

theorem triple_send {i : ι} {Q : ρ i → σ → Prop}
    (answered : ∀ s r s', P s → exec i s = some (r, s') → Q r s')
    (refused : ∀ s, P s → exec i s = none → Y s) : Triple P ((send i).attempt exec) Q Y := by
  have out : ∀ s, (send i).attempt exec s =
      match exec i s with
      | some r => (some r.1, r.2)
      | none => (none, s) := fun s => by simp only [send, attempt]
  refine ⟨fun {s a} hs he => ?_, fun {s} hs he => ?_⟩
  · rw [out] at he ⊢
    cases hx : exec i s with
    | none => simp [hx] at he
    | some r =>
      rw [hx] at he
      cases he
      exact answered s r.1 r.2 hs hx
  · rw [out] at he ⊢
    cases hx : exec i s with
    | none => exact refused s hs hx
    | some r => simp [hx] at he

/-- `I` of what the loop has gone through by then, and of what it has collected. -/
theorem triple_collect {f : γ → Calls ι ρ β} {xs : List γ} (I : List γ → List β → σ → Prop)
    (step : ∀ done out x rest, xs = done ++ x :: rest →
      Triple (I done out) ((f x).attempt exec) (fun y => I (done ++ [x]) (out ++ [y])) Y) :
    Triple (I [] []) ((collect f xs).attempt exec) (fun ys => I xs ys) Y := by
  suffices from_ : ∀ rest done out, xs = done ++ rest →
      Triple (I done out) ((collect f rest).attempt exec) (fun ys => I xs (out ++ ys)) Y
    from from_ xs [] [] rfl
  intro rest
  induction rest with
  | nil =>
    intro done out all
    rw [List.append_nil] at all
    refine triple_ret fun s hs => ?_
    rw [List.append_nil, all]
    exact hs
  | cons x rest ih =>
    intro done out all
    refine triple_bind (step done out x rest all) fun y => ?_
    have later := ih (done ++ [x]) (out ++ [y]) (by
      rw [all, List.append_assoc, List.singleton_append])
    refine triple_bind later fun ys => triple_ret fun s hs => ?_
    simpa only [List.append_assoc, List.singleton_append] using hs

theorem triple_fold {body : β → γ → Calls ι ρ β} {xs : List γ} (I : List γ → β → σ → Prop)
    (step : ∀ done b x rest, xs = done ++ x :: rest →
      Triple (I done b) ((body b x).attempt exec) (fun b' => I (done ++ [x]) b') Y) (b : β) :
    Triple (I [] b) ((fold body b xs).attempt exec) (fun b' => I xs b') Y := by
  suffices from_ : ∀ rest done b, xs = done ++ rest →
      Triple (I done b) ((fold body b rest).attempt exec) (fun b' => I xs b') Y
    from from_ xs [] b rfl
  intro rest
  induction rest with
  | nil =>
    intro done b all
    rw [List.append_nil] at all
    exact triple_ret fun s hs => all ▸ hs
  | cons x rest ih =>
    intro done b all
    refine triple_bind (step done b x rest all) fun b' => ih (done ++ [x]) b' ?_
    rw [all, List.append_assoc, List.singleton_append]

/-- What each call of a program keeps, the program keeps. -/
theorem triple_only {S : ι → Prop} (keeps : ∀ i s r s', S i → P s → exec i s = some (r, s') → P s')
    {p : Calls ι ρ α} (only : p.Only S) : Triple P (p.attempt exec) (fun _ => P) P := by
  have kept : ∀ s, P s → P (p.attempt exec s).2 :=
    attempt_keeps (R := fun s s' => P s → P s') (fun _ h => h) (fun h h' hs => h' (h hs))
      (fun hi answered hs => keeps _ _ _ _ hi hs answered) only
  exact ⟨fun hs _ => kept _ hs, fun hs _ => kept _ hs⟩

theorem triple_and {p : Calls ι ρ α} {S : ι → Prop} {T : α → Prop} (h : Triple P (p.attempt exec) Q Y)
    (result : p.Ensures S T) : Triple P (p.attempt exec) (fun a s => T a ∧ Q a s) Y :=
  ⟨fun hs he => ⟨attempt_ensures result he, h.ends hs he⟩, fun hs he => h.fails hs he⟩

end Rules

end Calls
