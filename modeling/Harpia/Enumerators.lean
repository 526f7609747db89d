import Harpia.EnumValues

namespace Harpia.EnumValues

/-- The enumerator on a line, up to its `;`: the name, and the number that ends `name = number`. -/
def enumerator (line : List Token) : Declared :=
  match line with
  | [name] => (name.lexeme, none)
  | [name, _, const] => (name.lexeme, const.int.toOption)
  | _ => ("", none)

/-- The enumerators a body declares, one for each `;`; `line` is what was read of the current line. -/
def enumeratorsFrom (line : List Token) : List Token → List Declared
  | [] => []
  | t :: ts =>
    match t.kind with
    | .NEWLINE => enumeratorsFrom [] ts
    | .PCOMMA => enumerator line :: enumeratorsFrom (line ++ [t]) ts
    | _ => enumeratorsFrom (line ++ [t]) ts

def declaredEnumerators (tokens : List Token) : List Declared := enumeratorsFrom [] tokens

/-- The enumerators that declare their number, and the names of those that do not. -/
def numbered (ds : List Declared) : List (String × Nat) := ds.filterMap fun d => d.2.map fun n => (d.1, n)

def unnumbered (ds : List Declared) : List String :=
  ds.filterMap fun d => if d.2 = none then some d.1 else none

/-- Every `;` of a body ends a declaration that `getValue` accepts. -/
def AllRead (file : String) (seen : Bool) (line : List Token) : List Token → Prop
  | [] => True
  | t :: ts =>
    match t.kind with
    | .NEWLINE => AllRead file true [] ts
    | .PCOMMA =>
      seen ∧ (∀ newline : Token, newline.kind = .NEWLINE →
        getValue file (newline :: (line ++ [t])) = .ok (.ok (enumerator line))) ∧
      AllRead file seen (line ++ [t]) ts
    | _ => AllRead file seen (line ++ [t]) ts

variable {file : String} {tokens : List Token}

/-- An accepted declaration is the line of one enumerator, and where the line starts does not matter. -/
theorem getValue_ok {newline t : Token} {line : List Token} {d : Declared}
    (h : getValue file (newline :: (line ++ [t])) = .ok (.ok d)) :
    newline.kind = .NEWLINE ∧ d = enumerator line ∧
      ∀ newline' : Token, newline'.kind = .NEWLINE →
        getValue file (newline' :: (line ++ [t])) = .ok (.ok d) := by
  unfold getValue at h
  simp only at h
  split at h
  · cases h
  next hnewline =>
    have start : newline.kind = .NEWLINE := not_not.mp hnewline
    refine ⟨start, ?_⟩
    unfold getValue
    rcases line with _ | ⟨name, _ | ⟨attr, _ | ⟨const, _ | ⟨next, line⟩⟩⟩⟩
    · cases h
    · simp only [List.cons_append, List.nil_append] at h ⊢
      split at h
      next plain =>
        cases Except.ok.inj (Except.ok.inj h)
        refine ⟨rfl, fun newline' hn => ?_⟩
        rw [if_neg (not_not.mpr hn), if_pos plain]
      next => cases h
    · cases h
    · simp only [List.cons_append, List.nil_append] at h ⊢
      split at h
      · cases h
      next named =>
        split at h
        · cases h
        next assigned =>
          split at h
          next constant =>
            obtain ⟨number, hnumber, h⟩ := bind_eq_ok.mp h
            cases Except.ok.inj (Except.ok.inj h)
            refine ⟨by simp [enumerator, hnumber, Except.toOption], fun newline' hn => ?_⟩
            rw [if_neg (not_not.mpr hn), if_neg named, if_neg assigned, if_pos constant, hnumber]
            rfl
          next => cases h
    · cases line <;> cases h

/-- The line mark: it is at the line end before the tokens read of the current line, or there was
none yet. -/
def Marked (seen : Bool) (c : Nat) (before line : List Token) : Prop :=
  if seen then c < before.length ∧ ∃ newline : Token, before.drop c = newline :: line ∧
    newline.kind = .NEWLINE
  else before = line ∧ ∀ t ∈ before, t.kind ≠ .NEWLINE

theorem marked_newline {before : List Token} {t : Token} (ht : t.kind = .NEWLINE) :
    Marked true before.length (before ++ [t]) [] := by
  refine ⟨by simp, t, by simp, ht⟩

theorem Marked.next {seen : Bool} {c : Nat} {before line : List Token} (h : Marked seen c before line)
    {t : Token} (ht : t.kind ≠ .NEWLINE) : Marked seen c (before ++ [t]) (line ++ [t]) := by
  unfold Marked at h ⊢
  split at h
  next hs =>
    obtain ⟨hc, newline, drop, kind⟩ := h
    rw [if_pos hs]
    refine ⟨by simp; omega, newline, ?_, kind⟩
    rw [List.drop_append_of_le_length (by omega), drop]
    rfl
  next hs =>
    obtain ⟨rfl, none⟩ := h
    rw [if_neg hs]
    refine ⟨rfl, fun t' ht' => ?_⟩
    rcases List.mem_append.mp ht' with ht' | ht'
    · exact none t' ht'
    · rw [List.mem_singleton.mp ht']
      exact ht

/-- The declaration a `;` ends, read from its line mark. -/
theorem Marked.getValue {seen : Bool} {c : Nat} {before line : List Token}
    (h : Marked seen c before line) (start : seen = false → c = 0) {t : Token} {d : Declared}
    (ht : t.kind = .PCOMMA)
    (read : EnumValues.getValue file (before.drop c ++ [t]) = .ok (.ok d)) :
    seen = true ∧ d = enumerator line ∧ ∀ newline : Token, newline.kind = .NEWLINE →
      EnumValues.getValue file (newline :: (line ++ [t])) = .ok (.ok d) := by
  cases seen with
  | true =>
    obtain ⟨_, newline, drop, _⟩ := h
    rw [drop] at read
    exact ⟨rfl, (getValue_ok read).2⟩
  | false =>
    obtain ⟨rfl, none⟩ := h
    rw [start rfl, List.drop_zero] at read
    cases before with
    | nil => simp [EnumValues.getValue, ht] at read
    | cons first before => exact absurd (getValue_ok read).1 (none first (by simp))

theorem enumeratorsFrom_other {t : Token} (newline : t.kind ≠ .NEWLINE) (pcomma : t.kind ≠ .PCOMMA)
    (line ts : List Token) : enumeratorsFrom line (t :: ts) = enumeratorsFrom (line ++ [t]) ts := by
  rw [enumeratorsFrom]
  split
  next h => exact absurd h newline
  next h => exact absurd h pcomma
  next => rfl

theorem allRead_other {t : Token} (newline : t.kind ≠ .NEWLINE) (pcomma : t.kind ≠ .PCOMMA)
    (seen : Bool) (line ts : List Token) :
    AllRead file seen line (t :: ts) = AllRead file seen (line ++ [t]) ts := by
  rw [AllRead]
  split
  next h => exact absurd h newline
  next h => exact absurd h pcomma
  next => rfl

/-- First loop: the numbered enumerators, and every declaration has been accepted. -/
theorem collectNumbered_fold (before : List Token) {after line : List Token} {seen : Bool}
    (split : tokens = before ++ after) {p q : Progress} (marked : Marked seen p.curNewLine before line)
    (start : seen = false → p.curNewLine = 0)
    (fold : (after.zipIdx before.length).foldlM (collectNumbered file tokens) p = .ok q) :
    q.tmpValues = p.tmpValues ++ numbered (enumeratorsFrom line after) ∧ AllRead file seen line after := by
  induction after generalizing before line seen p with
  | nil =>
    cases Except.ok.inj fold
    exact ⟨by simp [enumeratorsFrom, numbered], trivial⟩
  | cons t after ih =>
    rw [List.zipIdx_cons, List.foldlM_cons] at fold
    obtain ⟨p', step, rest⟩ := bind_eq_ok.mp fold
    have split' : tokens = (before ++ [t]) ++ after := by simp [split]
    have length : before.length + 1 = (before ++ [t]).length := by simp
    rw [length] at rest
    unfold collectNumbered at step
    simp only at step
    split at step
    next newline =>
      cases Except.ok.inj step
      obtain ⟨values, read⟩ := ih _ split' (marked_newline newline) (by simp) rest
      rw [enumeratorsFrom, AllRead, newline]
      exact ⟨values, read⟩
    next pcomma =>
      have hc : p.curNewLine ≤ before.length := by
        cases seen with
        | true => exact marked.1.le
        | false =>
          rw [start rfl]
          exact Nat.zero_le _
      rw [split, slice_upTo hc] at step
      obtain ⟨read, hread, step⟩ := bind_eq_ok.mp step
      obtain ⟨⟨name, number⟩, rfl, step⟩ := bind_eq_ok.mp step
      obtain ⟨hseen, hd, again⟩ := marked.getValue start pcomma hread
      have hp' : p'.curNewLine = p.curNewLine ∧ p'.tmpValues = p.tmpValues ++ numbered [(name, number)] := by
        cases number <;> cases Except.ok.inj step <;> simp [numbered]
      obtain ⟨values, rest⟩ := ih _ split'
        (by rw [hp'.1]; exact marked.next (by simp [pcomma])) (by rw [hp'.1]; exact start) rest
      rw [enumeratorsFrom, AllRead, pcomma]
      refine ⟨?_, hseen, by rw [← hd]; exact again, rest⟩
      have cons : ∀ ds, numbered ((name, number) :: ds) = numbered [(name, number)] ++ numbered ds :=
        fun ds => List.filterMap_append (l := [_])
      rw [values, hp'.2, List.append_assoc, ← hd]
      exact congrArg (p.tmpValues ++ ·) (cons _).symm
    next newline pcomma =>
      cases Except.ok.inj step
      obtain ⟨values, read⟩ := ih _ split' (marked.next newline) start rest
      rw [enumeratorsFrom_other newline pcomma, allRead_other newline pcomma]
      exact ⟨values, read⟩

/-- Second loop: the enumerators without a number are counted on from `lastValid`. Its line mark is
stale until the first line end, before which nothing is declared. -/
theorem collectUnnumbered_fold (before after line : List Token) {seen : Bool}
    (split : tokens = before ++ after) {p : Progress}
    (marked : seen = true → Marked true p.curNewLine before line)
    (read : AllRead file seen line after) :
    ∃ q, (after.zipIdx before.length).foldlM (collectUnnumbered file tokens) p = .ok q ∧
      q.tmpValues = p.tmpValues ++ (unnumbered (enumeratorsFrom line after)).zipIdx p.lastValid := by
  induction after generalizing before line seen p with
  | nil => exact ⟨p, rfl, by simp [enumeratorsFrom, unnumbered]⟩
  | cons t after ih =>
    have split' : tokens = (before ++ [t]) ++ after := by simp [split]
    have length : before.length + 1 = (before ++ [t]).length := by simp
    rw [List.zipIdx_cons, List.foldlM_cons, length]
    by_cases newline : t.kind = .NEWLINE
    · rw [AllRead, newline] at read
      obtain ⟨q, fold, values⟩ := ih _ _ (p := { p with curNewLine := before.length }) split'
        (fun _ => marked_newline newline) read
      refine ⟨q, ?_, ?_⟩
      · rw [collectUnnumbered, newline]
        exact fold
      · rw [enumeratorsFrom, newline]
        exact values
    · by_cases pcomma : t.kind = .PCOMMA
      · rw [AllRead, pcomma] at read
        obtain ⟨rfl, declared, rest⟩ := read
        obtain ⟨inside, first, drop, kind⟩ := marked rfl
        have cut : slice tokens p.curNewLine ((before.length : Int) + 1) = first :: (line ++ [t]) := by
          rw [split, slice_upTo inside.le, drop]
          rfl
        have value := declared first kind
        rw [enumeratorsFrom, pcomma]
        simp only
        rcases he : enumerator line with ⟨name, _ | number⟩
        · obtain ⟨q, fold, values⟩ := ih _ _
            (p := { p with
              tmpValues := p.tmpValues ++ [(name, p.lastValid)], lastValid := p.lastValid + 1 })
            split' (fun _ => (marked rfl).next newline) rest
          refine ⟨q, ?_, ?_⟩
          · rw [collectUnnumbered, pcomma]
            simp only
            rw [cut, value, he]
            exact fold
          · rw [values]
            simp [unnumbered]
        · obtain ⟨q, fold, values⟩ := ih _ _ (p := p) split' (fun _ => (marked rfl).next newline) rest
          refine ⟨q, ?_, ?_⟩
          · rw [collectUnnumbered, pcomma]
            simp only
            rw [cut, value, he]
            exact fold
          · rw [values]
            simp [unnumbered]
      · rw [allRead_other newline pcomma] at read
        obtain ⟨q, fold, values⟩ := ih _ _ (p := p) split' (fun hs => (marked hs).next newline) read
        refine ⟨q, ?_, ?_⟩
        · rw [collectUnnumbered]
          split
          next h => exact absurd h newline
          next h => exact absurd h pcomma
          next => exact fold
        · rw [enumeratorsFrom_other newline pcomma]
          exact values

/-- The first number after the declared ones. -/
def nextNumber (ds : List Declared) : Nat :=
  ((numbered ds).insertionSort fun a b => a.2 ≤ b.2).getLast?.elim 0 fun last => last.2 + 1

/-- The first loop over a whole body. -/
theorem collectNumbered_all {q : Progress}
    (fold : tokens.zipIdx.foldlM (collectNumbered file tokens) {} = .ok q) :
    q.tmpValues = numbered (declaredEnumerators tokens) ∧ AllRead file false [] tokens := by
  have empty : Marked false 0 [] [] := ⟨rfl, fun t ht => by cases ht⟩
  obtain ⟨values, read⟩ := collectNumbered_fold [] rfl empty (fun _ => rfl) fold
  exact ⟨by rw [values]; rfl, read⟩

theorem process_allRead {values : List (String × Nat)} (h : process file tokens = .ok values) :
    AllRead file false [] tokens := by
  obtain ⟨p, fold, _⟩ := bind_eq_ok.mp h
  exact (collectNumbered_all fold).2

/-- What an accepted body yields: the declared numbers in order, then the others counted on. -/
theorem process_values {values : List (String × Nat)} (h : process file tokens = .ok values) :
    values = ((numbered (declaredEnumerators tokens)).insertionSort fun a b => a.2 ≤ b.2) ++
      (unnumbered (declaredEnumerators tokens)).zipIdx (nextNumber (declaredEnumerators tokens)) := by
  obtain ⟨p₁, fold₁, h₁⟩ := bind_eq_ok.mp h
  obtain ⟨p₂, sorted, h₂⟩ := bind_eq_ok.mp h₁
  obtain ⟨p₃, fold₂, h₃⟩ := bind_eq_ok.mp h₂
  obtain ⟨numbers, read⟩ := collectNumbered_all fold₁
  obtain ⟨q, fold, values₂⟩ := collectUnnumbered_fold [] tokens [] rfl
    (p := p₂) (fun hs => by cases hs) read
  obtain rfl := Except.ok.inj (fold.symm.trans fold₂)
  have result : q.tmpValues = values := Except.ok.inj h₃
  cases Except.ok.inj sorted
  rw [← result, values₂]
  simp only [numbers]
  rfl

theorem process_perm {values : List (String × Nat)} (h : process file tokens = .ok values) :
    values.Perm (numbered (declaredEnumerators tokens) ++
      (unnumbered (declaredEnumerators tokens)).zipIdx (nextNumber (declaredEnumerators tokens))) := by
  rw [process_values h]
  exact (List.perm_insertionSort _ _).append_right _

theorem lt_nextNumber {ds : List Declared} {d : String × Nat} (h : d ∈ numbered ds) :
    d.2 < nextNumber ds := by
  have sorted := List.pairwise_insertionSort (fun a b : String × Nat => a.2 ≤ b.2) (numbered ds)
  have mem : d ∈ (numbered ds).insertionSort fun a b => a.2 ≤ b.2 := (List.mem_insertionSort _).mpr h
  unfold nextNumber
  obtain ⟨init, last, hlast⟩ := (List.eq_nil_or_concat' _).resolve_left (List.ne_nil_of_mem mem)
  rw [hlast] at sorted mem ⊢
  rw [List.getLast?_concat, Option.elim_some]
  have below := (List.pairwise_append.mp sorted).2.2
  rcases List.mem_append.mp mem with hd | hd
  · exact Nat.lt_succ_of_le (below d hd last (by simp))
  · rw [List.mem_singleton.mp hd]
    exact Nat.lt_succ_self _

/-- What an enum means to have: one number for each declared enumerator, all of them different; a
declared number is kept, and the others are larger and rise in the order of declaration. -/
structure Numbering (ds : List Declared) (values : List (String × Nat)) : Prop where
  each : ∃ numbers : List Nat, numbers.length = ds.length ∧
    values.Perm ((ds.map Prod.fst).zip numbers) ∧
    (∀ e ∈ ds.zip numbers, ∀ n ∈ e.1.2, e.2 = n) ∧
    (∀ e ∈ ds.zip numbers, e.1.2 = none → ∀ d ∈ ds, ∀ n ∈ d.2, n < e.2) ∧
    ((ds.zip numbers).filter fun e => e.1.2 = none).Pairwise fun e e' => e.2 < e'.2
  distinct : (values.map Prod.snd).Nodup

/-- The number each declaration gets, when the others start at `next`. -/
def assign (next : Nat) : List Declared → List Nat
  | [] => []
  | (_, some n) :: ds => n :: assign next ds
  | (_, none) :: ds => next :: assign (next + 1) ds

theorem assign_length (next : Nat) (ds : List Declared) : (assign next ds).length = ds.length := by
  induction ds generalizing next with
  | nil => rfl
  | cons d ds ih =>
    obtain ⟨name, _ | n⟩ := d
    · simp [assign, ih]
    · simp [assign, ih]

theorem numbered_cons (name : String) (number : Option Nat) (ds : List Declared) :
    numbered ((name, number) :: ds) = (number.map fun n => (name, n)).toList ++ numbered ds := by
  cases number <;> rfl

theorem unnumbered_cons (name : String) (number : Option Nat) (ds : List Declared) :
    unnumbered ((name, number) :: ds) = (if number = none then [name] else []) ++ unnumbered ds := by
  cases number <;> rfl

theorem assign_perm (next : Nat) (ds : List Declared) :
    (numbered ds ++ (unnumbered ds).zipIdx next).Perm ((ds.map Prod.fst).zip (assign next ds)) := by
  induction ds generalizing next with
  | nil => exact List.Perm.refl _
  | cons d ds ih =>
    obtain ⟨name, _ | n⟩ := d
    · rw [numbered_cons, unnumbered_cons]
      simp only [Option.map_none, Option.toList_none, List.nil_append, if_true, List.cons_append,
        List.zipIdx_cons, List.map_cons, assign, List.zip_cons_cons]
      exact List.perm_middle.trans ((ih (next + 1)).cons _)
    · rw [numbered_cons, unnumbered_cons]
      simp only [Option.map_some, Option.toList_some, List.cons_append, List.nil_append, reduceCtorEq,
        if_false, List.map_cons, assign, List.zip_cons_cons]
      exact (ih next).cons _

theorem assign_explicit {next : Nat} {ds : List Declared} {e : Declared × Nat}
    (h : e ∈ ds.zip (assign next ds)) : ∀ n ∈ e.1.2, e.2 = n := by
  induction ds generalizing next with
  | nil => cases h
  | cons d ds ih =>
    obtain ⟨name, _ | number⟩ := d
    · rcases List.mem_cons.mp h with rfl | h
      · intro n hn
        cases hn
      · exact ih h
    · rcases List.mem_cons.mp h with rfl | h
      · intro n hn
        exact Option.some.inj hn
      · exact ih h

theorem assign_implicit (next : Nat) (ds : List Declared) :
    (∀ e ∈ ds.zip (assign next ds), e.1.2 = none → next ≤ e.2) ∧
      ((ds.zip (assign next ds)).filter fun e => e.1.2 = none).Pairwise fun e e' => e.2 < e'.2 := by
  induction ds generalizing next with
  | nil => exact ⟨fun e he => absurd he List.not_mem_nil, List.Pairwise.nil⟩
  | cons d ds ih =>
    obtain ⟨name, _ | number⟩ := d
    · obtain ⟨above, rising⟩ := ih (next + 1)
      refine ⟨?_, ?_⟩
      · intro e he hn
        rcases List.mem_cons.mp he with rfl | he
        · exact le_rfl
        · have := above e he hn
          omega
      · rw [assign, List.zip_cons_cons, List.filter_cons_of_pos (by simp)]
        refine List.pairwise_cons.mpr ⟨?_, rising⟩
        intro e he
        obtain ⟨he, hn⟩ := List.mem_filter.mp he
        exact above e he (by simpa using hn)
    · obtain ⟨above, rising⟩ := ih next
      refine ⟨?_, ?_⟩
      · intro e he hn
        rcases List.mem_cons.mp he with rfl | he
        · cases hn
        · exact above e he hn
      · rw [assign, List.zip_cons_cons, List.filter_cons_of_neg (by simp)]
        exact rising

theorem numbered_numbers (ds : List Declared) :
    (numbered ds).map Prod.snd = ds.filterMap Prod.snd := by
  rw [numbered, List.map_filterMap]
  refine List.filterMap_congr fun d _ => ?_
  cases d.2 <;> rfl

/-- The declared numbers stand among all the numbers. -/
theorem explicit_sublist {ds : List Declared} {numbers : List Nat}
    (length : numbers.length = ds.length) (kept : ∀ e ∈ ds.zip numbers, ∀ n ∈ e.1.2, e.2 = n) :
    (ds.filterMap Prod.snd).Sublist numbers := by
  induction ds generalizing numbers with
  | nil => exact List.nil_sublist _
  | cons d ds ih =>
    obtain ⟨n, numbers, rfl⟩ : ∃ n numbers', numbers = n :: numbers' := by
      cases numbers with
      | nil => cases length
      | cons n numbers => exact ⟨n, numbers, rfl⟩
    have rest := ih (Nat.succ.inj length) (fun e he => kept e (List.mem_cons_of_mem _ he))
    obtain ⟨name, _ | number⟩ := d
    · exact rest.cons n
    · obtain rfl : n = number := kept _ (List.mem_cons_self ..) number rfl
      exact rest.cons_cons n

/-- An accepted enum is numbered as it means to be exactly when the declared numbers differ. -/
theorem process_numbering_iff {values : List (String × Nat)} (accepted : process file tokens = .ok values) :
    Numbering (declaredEnumerators tokens) values ↔
      ((declaredEnumerators tokens).filterMap Prod.snd).Nodup := by
  obtain ⟨ds, hds⟩ : ∃ ds, ds = declaredEnumerators tokens := ⟨_, rfl⟩
  have perm := process_perm accepted
  rw [← hds] at perm ⊢
  constructor
  · intro h
    obtain ⟨numbers, length, each, kept, _, _⟩ := h.each
    have snd : ((ds.map Prod.fst).zip numbers).map Prod.snd = numbers :=
      List.map_snd_zip (by simp [length])
    have distinct : numbers.Nodup := by
      rw [← snd]
      exact (each.map Prod.snd).nodup_iff.mp h.distinct
    exact distinct.sublist (explicit_sublist length kept)
  · intro distinct
    have below : ∀ d ∈ ds, ∀ n ∈ d.2, n < nextNumber ds := by
      intro d hd n hn
      exact lt_nextNumber (d := (d.1, n)) (List.mem_filterMap.mpr ⟨d, hd, by rw [hn]; rfl⟩)
    obtain ⟨above, rising⟩ := assign_implicit (nextNumber ds) ds
    refine ⟨⟨assign (nextNumber ds) ds, assign_length _ _, perm.trans (assign_perm _ _),
      fun e he => assign_explicit he, ?_, rising⟩, ?_⟩
    · intro e he hn d hd n hdn
      have := below d hd n hdn
      have := above e he hn
      omega
    · rw [(perm.map Prod.snd).nodup_iff, List.map_append, numbered_numbers, List.nodup_append]
      refine ⟨distinct, ?_, ?_⟩
      · rw [List.zipIdx_map_snd]
        exact List.nodup_range'
      · rintro n hn m hm rfl
        obtain ⟨d, hd, hdn⟩ := List.mem_filterMap.mp hn
        rw [List.zipIdx_map_snd, List.mem_range'_1] at hm
        have := below d hd n hdn
        omega

/-- `a = 3;` and `b = number;`, each on its line. -/
def twoEnumerators (number : String) : List Token :=
  [.of .NEWLINE "\n", .of .ID "a", .of .ATTR "=", .of .INTEGER_CONST "3", .of .PCOMMA ";",
    .of .NEWLINE "\n", .of .ID "b", .of .ATTR "=", .of .INTEGER_CONST number, .of .PCOMMA ";"]

theorem process_numbering_iff_threeOne : ∃ values,
    process "test.harpia" (twoEnumerators "1") = .ok values ∧
      (Numbering (declaredEnumerators (twoEnumerators "1")) values ↔
        ((declaredEnumerators (twoEnumerators "1")).filterMap Prod.snd).Nodup) := by
  obtain ⟨values, accepted⟩ := exists_of_isOk
    (x := process "test.harpia" (twoEnumerators "1")) (by decide +kernel)
  exact ⟨values, accepted, process_numbering_iff accepted⟩

theorem not_numbering_threeThree :
    ¬ ∀ (file : String) (tokens : List Token) (values : List (String × Nat)),
      process file tokens = .ok values → Numbering (declaredEnumerators tokens) values := by
  intro h
  have accepted : process "test.harpia" (twoEnumerators "3") = .ok [("a", 3), ("b", 3)] := by
    decide +kernel
  have distinct := (h _ _ _ accepted).distinct
  exact absurd distinct (by decide)

end Harpia.EnumValues
