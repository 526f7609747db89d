import Harpia.MessageProcess

namespace Harpia

/-- The text before each `;`, given the text before the list. -/
def textsBefore (prev : String) : List Token → List String
  | [] => []
  | t :: ts => if t.kind = .PCOMMA then prev :: textsBefore t.lexeme ts else textsBefore t.lexeme ts

/-- The names a body declares: the text right before each `;`. -/
def declaredNames (tokens : List Token) : List String := textsBefore "" tokens

/-- The text before what follows a list. -/
def lastText (prev : String) (ts : List Token) : String := (ts.getLast?.map Token.lexeme).getD prev

theorem lastText_concat (prev : String) (ts : List Token) (t : Token) :
    lastText prev (ts ++ [t]) = t.lexeme := by
  simp [lastText]

theorem textsBefore_concat (prev : String) (ts : List Token) (t : Token) :
    textsBefore prev (ts ++ [t]) =
      textsBefore prev ts ++ if t.kind = .PCOMMA then [lastText prev ts] else [] := by
  induction ts generalizing prev with
  | nil => rfl
  | cons t' ts ih =>
    have hlast : lastText prev (t' :: ts) = lastText t'.lexeme ts := by
      unfold lastText
      rw [List.getLast?_cons]
      cases ts.getLast? <;> rfl
    rw [List.cons_append, textsBefore, textsBefore, ih, hlast]
    split_ifs <;> simp

namespace Variables

variable {file : String} {available : List String} {tokens : List Token}

theorem scanToken_currVarName {line : List Token} {count : Nat} {scan scan' : FieldScan}
    {e : Token × Nat} (h : scanToken file line count scan e = .ok scan') :
    scan'.currVarName = some e.1 := by
  obtain ⟨scan₁, _, h⟩ := bind_eq_ok.mp h
  cases Except.ok.inj h
  rfl

/-- A `;` names the variable after the token before it. -/
theorem scanToken_pcomma {line : List Token} {count : Nat} {scan scan' : FieldScan} {t : Token}
    {i : Nat} (ht : t.kind = .PCOMMA) (h : scanToken file line count scan (t, i) = .ok scan') :
    ∃ prev, scan.currVarName = some prev ∧ scan'.name = prev.lexeme ∧
      isReservedHiddenName prev.lexeme = false := by
  obtain ⟨scan₁, h₁, h⟩ := bind_eq_ok.mp h
  cases Except.ok.inj h
  simp only [readToken, ht] at h₁
  cases hp : scan.currVarName with
  | none => simp [hp] at h₁
  | some prev =>
    simp only [hp] at h₁
    split at h₁
    · cases h₁
    next reserved =>
      cases Except.ok.inj h₁
      exact ⟨prev, rfl, rfl, by simpa using reserved⟩

theorem scan_concat {line init : List Token} {count j : Nat} {scan scan' : FieldScan} {t : Token}
    (h : ((init ++ [t]).zipIdx j).foldlM (scanToken file line count) scan = .ok scan') :
    ∃ scan₁, (init.zipIdx j).foldlM (scanToken file line count) scan = .ok scan₁ ∧
      scanToken file line count scan₁ (t, j + init.length) = .ok scan' := by
  rw [List.zipIdx_append, List.foldlM_append] at h
  obtain ⟨scan₁, h₁, h⟩ := bind_eq_ok.mp h
  refine ⟨scan₁, h₁, ?_⟩
  rw [List.zipIdx_singleton, List.foldlM_cons] at h
  obtain ⟨scan₂, h₂, h⟩ := bind_eq_ok.mp h
  cases Except.ok.inj h
  exact h₂

/-- A whole declaration: its name is the text before the `;`, which is not the first token. -/
theorem scan_name {line init : List Token} {count : Nat} {scan : FieldScan} {t : Token}
    (ht : t.kind = .PCOMMA)
    (h : (init ++ [t]).zipIdx.foldlM (scanToken file line count) {} = .ok scan) :
    init ≠ [] ∧ scan.name = lastText "" init ∧ isReservedHiddenName scan.name = false := by
  obtain ⟨scan₁, h₁, h₂⟩ := scan_concat h
  obtain ⟨prev, hprev, name, reserved⟩ := scanToken_pcomma ht h₂
  rcases List.eq_nil_or_concat' init with rfl | ⟨front, last, rfl⟩
  · cases Except.ok.inj h₁
    cases hprev
  · obtain ⟨scan₂, _, h₃⟩ := scan_concat h₁
    obtain rfl := Option.some.inj ((scanToken_currVarName h₃).symm.trans hprev)
    exact ⟨by simp, by rw [name, lastText_concat], by rw [name]; exact reserved⟩

theorem storeField_ok {pcomma : Token} {p p' : Progress} {scan : FieldScan}
    (h : storeField file available tokens pcomma p scan = .ok p') :
    p'.curNewLine = p.curNewLine ∧ scan.type.isSome ∧
      ∃ v, p'.vars = p.vars ++ [v] ∧ v.name = scan.name := by
  unfold storeField at h
  cases ht : scan.type with
  | none => simp [ht] at h
  | some type =>
    simp only [ht] at h
    split at h
    · cases Except.ok.inj h
      exact ⟨rfl, rfl, _, rfl, rfl⟩
    · obtain ⟨regex, _, h⟩ := bind_eq_ok.mp h
      cases regex with
      | none => cases h
      | some regex =>
        cases Except.ok.inj h
        exact ⟨rfl, rfl, _, rfl, rfl⟩

/-- The slice a `;` takes when there is no line mark. -/
theorem slice_last {before after : List Token} {t : Token} :
    slice (before ++ t :: after) (-1) ((before.length : Int) + 1) = if after = [] then [t] else [] := by
  have stop : (before.length : Int) + 1 = (before.length + 1 : Nat) := by omega
  have take : (before ++ t :: after).take (before.length + 1) = before ++ [t] := by
    simp [List.take_append]
  have start : sliceBound (before ++ t :: after).length (-1) = before.length + after.length := by
    rw [sliceBound, if_pos (by decide), List.length_append, List.length_cons]
    omega
  rw [slice, stop, sliceBound_natCast, take, start]
  split
  next h => simp [h]
  next h =>
    have := List.length_pos_iff.mpr h
    simp
    omega

/-- After a prefix of the body: one variable for each `;`, named after the text before it, and a line
mark that is gone or lies within the prefix. -/
structure Collected (p : Progress) (before : List Token) : Prop where
  names : p.vars.map ParsedVariable.name = idVariable.name :: declaredNames before
  allowed : ∀ name ∈ declaredNames before, isReservedHiddenName name = false
  line : p.curNewLine = -1 ∨ ∃ c : Nat, p.curNewLine = c ∧ (c < before.length ∨ c = 0)

theorem collected_step {p p' : Progress} {before after : List Token} {t : Token}
    (h : Collected p before) (split : tokens = before ++ t :: after)
    (step : processToken file available tokens p (t, before.length) = .ok p') :
    Collected p' (before ++ [t]) := by
  have keep : t.kind ≠ .PCOMMA → declaredNames (before ++ [t]) = declaredNames before := by
    intro ht
    rw [declaredNames, textsBefore_concat, if_neg ht, List.append_nil, declaredNames]
  have grow : ∀ c : Nat, c < before.length ∨ c = 0 → c < (before ++ [t]).length := by
    intro c hc
    simp only [List.length_append, List.length_singleton]
    omega
  unfold processToken at step
  simp only at step
  split at step
  next newline =>
    cases Except.ok.inj step
    have ht : t.kind ≠ .PCOMMA := by simp [newline]
    refine ⟨by rw [keep ht]; exact h.names, by rw [keep ht]; exact h.allowed,
      Or.inr ⟨before.length, rfl, Or.inl ?_⟩⟩
    simp
  next pcomma =>
    obtain ⟨scan, hscan, step⟩ := bind_eq_ok.mp step
    obtain ⟨cur, typed, v, vars, name⟩ := storeField_ok step
    -- the declaration starts at a line mark: without one the slice holds no type
    obtain ⟨c, hc, inside⟩ : ∃ c : Nat, p.curNewLine = c ∧ (c < before.length ∨ c = 0) := by
      refine h.line.resolve_left fun gone => ?_
      rw [gone, split, slice_last] at hscan
      split at hscan
      · exact (scan_name pcomma hscan).1 rfl
      · cases Except.ok.inj hscan
        cases typed
    have line : slice tokens p.curNewLine ((before.length : Int) + 1) = before.drop c ++ [t] := by
      rw [hc, split, slice_upTo (by omega)]
    rw [line] at hscan
    obtain ⟨hne, scanName, reserved⟩ := scan_name pcomma hscan
    have last : lastText "" (before.drop c) = lastText "" before := by
      rw [Ne, List.drop_eq_nil_iff] at hne
      rw [lastText, List.getLast?_drop, if_neg hne, lastText]
    have names : declaredNames (before ++ [t]) = declaredNames before ++ [scan.name] := by
      rw [declaredNames, textsBefore_concat, if_pos pcomma, scanName, last, declaredNames]
    refine ⟨?_, ?_, Or.inl cur⟩
    · rw [names, vars, List.map_append, h.names]
      simp [name]
    · intro n hn
      rw [names] at hn
      rcases List.mem_append.mp hn with hn | hn
      · exact h.allowed n hn
      · rw [List.mem_singleton.mp hn]
        exact reserved
  next newline pcomma =>
    cases Except.ok.inj step
    refine ⟨by rw [keep pcomma]; exact h.names, by rw [keep pcomma]; exact h.allowed, ?_⟩
    rcases h.line with gone | ⟨c, hc, inside⟩
    · exact Or.inl gone
    · exact Or.inr ⟨c, hc, Or.inl (grow c inside)⟩

theorem collected_fold {before after : List Token} (split : tokens = before ++ after) {p q : Progress}
    (h : Collected p before)
    (fold : (after.zipIdx before.length).foldlM (processToken file available tokens) p = .ok q) :
    Collected q tokens := by
  induction after generalizing before p with
  | nil =>
    cases Except.ok.inj fold
    rwa [split, List.append_nil]
  | cons t after ih =>
    rw [List.zipIdx_cons, List.foldlM_cons] at fold
    obtain ⟨p', step, rest⟩ := bind_eq_ok.mp fold
    refine ih (by simp [split]) (collected_step h split step) ?_
    rwa [List.length_append, List.length_singleton]

/-- The names of an accepted body: the hidden ones around the declared ones. -/
theorem process_names {vars : List ParsedVariable} {dependencies : List Token}
    (h : process file available tokens = .ok (vars, dependencies)) :
    vars.map ParsedVariable.name =
        "HARPIA_ID" :: declaredNames tokens ++ ["HARPIA_STATUS", "HARPIA_ERROR", "HARPIA_ORIGINATOR"] ∧
      ∀ name ∈ declaredNames tokens, isReservedHiddenName name = false := by
  obtain ⟨p, fold, h⟩ := bind_eq_ok.mp h
  have start : Collected { vars := [idVariable] } [] :=
    ⟨rfl, fun name hn => by simp [declaredNames, textsBefore] at hn, Or.inr ⟨0, rfl, Or.inr rfl⟩⟩
  have collected := collected_fold rfl start fold
  simp only at h
  split at h
  · obtain ⟨rfl, rfl⟩ := Prod.mk.inj (Except.ok.inj h)
    refine ⟨?_, collected.allowed⟩
    simp only [addHiddenVariables, List.map_append, collected.names]
    rfl
  · cases h

end Variables

/-- The names of an accepted body are pairwise distinct exactly when the declared ones are. -/
theorem names_nodup_iff {file : String} {available : List String} {tokens : List Token}
    {vars : List ParsedVariable} {dependencies : List Token}
    (accepted : Variables.process file available tokens = .ok (vars, dependencies)) :
    (vars.map ParsedVariable.name).Nodup ↔ (declaredNames tokens).Nodup := by
  obtain ⟨names, allowed⟩ := Variables.process_names accepted
  have apart : ∀ hidden ∈ ["HARPIA_ID", "HARPIA_STATUS", "HARPIA_ERROR", "HARPIA_ORIGINATOR"],
      hidden ∉ declaredNames tokens := by
    intro hidden hh hd
    have reserved : ∀ hidden ∈ ["HARPIA_ID", "HARPIA_STATUS", "HARPIA_ERROR", "HARPIA_ORIGINATOR"],
        isReservedHiddenName hidden = true := by decide +kernel
    exact absurd (reserved hidden hh) (by simp [allowed hidden hd])
  rw [names]
  constructor
  · intro distinct
    exact distinct.sublist ((List.sublist_cons_self _ _).trans (List.sublist_append_left _ _))
  · intro distinct
    have around : List.Perm ("HARPIA_ID" :: declaredNames tokens ++
        ["HARPIA_STATUS", "HARPIA_ERROR", "HARPIA_ORIGINATOR"])
        (["HARPIA_ID", "HARPIA_STATUS", "HARPIA_ERROR", "HARPIA_ORIGINATOR"] ++ declaredNames tokens) :=
      List.Perm.cons _ List.perm_append_comm
    refine around.nodup_iff.mpr (List.nodup_append.mpr ⟨by decide, distinct, ?_⟩)
    rintro hidden hh name hd rfl
    exact apart hidden hh hd

/-- `int x;` and `string y;`, each on its line. -/
def twoFields (second : String) : List Token :=
  [.of .NEWLINE "\n", .of .INT32 "int", .of .ID "x", .of .PCOMMA ";", .of .NEWLINE "\n",
    .of .STRING "string", .of .ID second, .of .PCOMMA ";"]

theorem names_nodup_iff_xy : ∃ vars dependencies,
    Variables.process "test.harpia" [] (twoFields "y") = .ok (vars, dependencies) ∧
      ((vars.map ParsedVariable.name).Nodup ↔ (declaredNames (twoFields "y")).Nodup) := by
  obtain ⟨⟨vars, dependencies⟩, accepted⟩ := exists_of_isOk
    (x := Variables.process "test.harpia" [] (twoFields "y")) (by decide +kernel)
  exact ⟨vars, dependencies, accepted, names_nodup_iff accepted⟩

theorem not_names_nodup_xx :
    ¬ ∀ (file : String) (available : List String) (tokens : List Token) (vars : List ParsedVariable)
      (dependencies : List Token),
      Variables.process file available tokens = .ok (vars, dependencies) →
      (vars.map ParsedVariable.name).Nodup := by
  intro h
  obtain ⟨⟨vars, dependencies⟩, accepted⟩ := exists_of_isOk
    (x := Variables.process "test.harpia" [] (twoFields "x")) (by decide +kernel)
  have distinct := h _ _ _ vars dependencies accepted
  rw [(Variables.process_names accepted).1] at distinct
  exact absurd distinct (by decide)

end Harpia
