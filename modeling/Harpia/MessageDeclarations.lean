import Harpia.Enumerators
import Harpia.FieldNames

namespace Harpia

/-- One token of a declaration: the name read so far, and whether a bracket is open. A type or a
field may carry a bracketed pattern or bound. -/
def readDeclared (s : Option String × Bool) (t : Token) : Option String × Bool :=
  match t.kind with
  | .PCOMMA => (none, false)
  | .NEWLINE => (s.1, false)
  | .SQLEFTBRACKET => (s.1, true)
  | .SQRIGHTBRACKET => (s.1, false)
  | .ID => (if s.2 then s.1 else some t.lexeme, s.2)
  | _ => s

def declaredFrom (s : Option String × Bool) : List Token → List (Option String)
  | [] => []
  | t :: ts => if t.kind = .PCOMMA then s.1 :: declaredFrom (readDeclared s t) ts
    else declaredFrom (readDeclared s t) ts

/-- The names of the `;` terminated declarations: for each the last identifier outside brackets. -/
def declared (body : List Token) : List (Option String) := declaredFrom (none, false) body

theorem declaredFrom_length (s : Option String × Bool) (prev : String) (ts : List Token) :
    (declaredFrom s ts).length = (textsBefore prev ts).length := by
  induction ts generalizing s prev with
  | nil => rfl
  | cons t ts ih =>
    rw [declaredFrom, textsBefore]
    split_ifs
    · rw [List.length_cons, List.length_cons, ih]
    · exact ih _ _

theorem declaredFrom_concat (s : Option String × Bool) (ts : List Token) (t : Token) :
    declaredFrom s (ts ++ [t]) =
      declaredFrom s ts ++ if t.kind = .PCOMMA then [(ts.foldl readDeclared s).1] else [] := by
  induction ts generalizing s with
  | nil => rfl
  | cons t' ts ih =>
    rw [List.cons_append, declaredFrom, declaredFrom, ih, List.foldl_cons]
    split_ifs <;> simp

/-- The declaration that the last token of a body ends, if it is a `;`. -/
theorem declared_dropLast {body : List Token} (h : body.getLast?.map Token.kind ≠ some .PCOMMA) :
    declared body.dropLast = declared body ∧ declaredNames body.dropLast = declaredNames body := by
  rcases List.eq_nil_or_concat' body with rfl | ⟨front, last, rfl⟩
  · exact ⟨rfl, rfl⟩
  · have ht : last.kind ≠ .PCOMMA := by simpa using h
    rw [List.dropLast_concat, declared, declared, declaredFrom_concat, declaredNames, declaredNames,
      textsBefore_concat, if_neg ht, if_neg ht, List.append_nil, List.append_nil]
    exact ⟨rfl, rfl⟩

theorem declared_dropLast_length {body : List Token}
    (h : body.getLast?.map Token.kind = some .PCOMMA) :
    (declared body).length = (declared body.dropLast).length + 1 := by
  rcases List.eq_nil_or_concat' body with rfl | ⟨front, last, rfl⟩
  · simp at h
  · have ht : last.kind = .PCOMMA := by simpa using h
    rw [List.dropLast_concat, declared, declared, declaredFrom_concat, if_pos ht, List.length_append,
      List.length_singleton]

namespace EnumValues

variable {file : String}

/-- The name on the line of an accepted enumerator. -/
theorem getValue_declared {newline t : Token} {line : List Token} {d : Declared}
    (h : getValue file (newline :: (line ++ [t])) = .ok (.ok d)) (name : Option String) :
    (line.foldl readDeclared (name, false)).1 = some d.1 := by
  unfold getValue at h
  simp only at h
  split at h
  · cases h
  rcases line with _ | ⟨id, _ | ⟨attr, _ | ⟨const, _ | ⟨next, line⟩⟩⟩⟩
  · cases h
  · simp only [List.cons_append, List.nil_append] at h
    split at h
    next plain =>
      cases Except.ok.inj (Except.ok.inj h)
      simp [readDeclared, plain.1]
    next => cases h
  · cases h
  · simp only [List.cons_append, List.nil_append] at h
    split at h
    · cases h
    next named =>
      split at h
      · cases h
      next assigned =>
        split at h
        next constant =>
          obtain ⟨number, _, h⟩ := bind_eq_ok.mp h
          cases Except.ok.inj (Except.ok.inj h)
          simp [readDeclared, not_not.mp named, not_not.mp assigned, constant]
        next => cases h
  · cases line <;> cases h

/-- The enumerators of an accepted body carry the declared names. -/
theorem enumeratorsFrom_names {seen : Bool} {line ts : List Token} (name : Option String)
    (read : AllRead file seen line ts) :
    (enumeratorsFrom line ts).map (fun d => some d.1) =
      declaredFrom (line.foldl readDeclared (name, false)) ts := by
  induction ts generalizing seen line name with
  | nil => rfl
  | cons t ts ih =>
    rw [declaredFrom]
    by_cases newline : t.kind = .NEWLINE
    · rw [AllRead, newline] at read
      rw [enumeratorsFrom, newline, if_neg (by simp)]
      have restart : readDeclared (line.foldl readDeclared (name, false)) t =
          ((line.foldl readDeclared (name, false)).1, false) := by
        rw [readDeclared, newline]
      rw [restart]
      exact ih _ read
    · by_cases pcomma : t.kind = .PCOMMA
      · rw [AllRead, pcomma] at read
        obtain ⟨_, accepted, rest⟩ := read
        rw [enumeratorsFrom, pcomma, if_pos rfl, ← List.foldl_concat readDeclared]
        have here := getValue_declared (accepted (.of .NEWLINE "\n") rfl) name
        rw [List.map_cons, here]
        exact congrArg _ (ih _ rest)
      · rw [allRead_other newline pcomma] at read
        rw [enumeratorsFrom_other newline pcomma, if_neg pcomma,
          ← List.foldl_concat readDeclared]
        exact ih _ read

/-- The names of an accepted enum are the declared ones. -/
theorem process_names {tokens : List Token} {values : List (String × Nat)}
    (h : process file tokens = .ok values) :
    (values.map fun value => some value.1).Perm (declared tokens) := by
  have perm := (process_perm h).trans (assign_perm _ _)
  have length := assign_length (nextNumber (declaredEnumerators tokens)) (declaredEnumerators tokens)
  have fst := (perm.map Prod.fst).trans (List.Perm.of_eq (List.map_fst_zip (by simp [length])))
  have names := enumeratorsFrom_names none (process_allRead h)
  rw [declared]
  refine List.Perm.trans ?_ (List.Perm.of_eq names)
  have some := fst.map some
  rwa [List.map_map, List.map_map] at some

end EnumValues

namespace Processing

variable {file : String} {available : List String} {tokens : List Token}

theorem readKeyword_ok {p p' : Processing} {t : Token} {j : Nat}
    (h : readKeyword file tokens p t j = .ok p') :
    p'.message.vars = p.message.vars ∧ p'.isEnum = (p.isEnum || t.kind = .ENUM) ∧
      p'.startOfVariables = p.startOfVariables := by
  unfold readKeyword at h
  split at h
  next keyword =>
    split at h
    next enum =>
      cases Except.ok.inj h
      exact ⟨rfl, by rcases enum with enum | enum <;> simp [enum], rfl⟩
    next message =>
      obtain ⟨notEnum, plain⟩ := not_or.mp message
      simp only at h
      split at h
      · cases h
      · cases Except.ok.inj h
        exact ⟨rfl, by simp [notEnum], rfl⟩
  next other =>
    cases Except.ok.inj h
    exact ⟨rfl, by simp [(not_or.mp other).2], rfl⟩

theorem readName_ok {p p' : Processing} {t : Token} (h : readName file p t = .ok p') :
    p'.message = p.message ∧ p'.isEnum = p.isEnum ∧ p'.startOfVariables = p.startOfVariables := by
  unfold readName at h
  split at h
  · split at h
    · cases Except.ok.inj h
      exact ⟨rfl, rfl, rfl⟩
    · cases h
  · cases Except.ok.inj h
    exact ⟨rfl, rfl, rfl⟩

theorem readLBrace_ok {p p' : Processing} {t : Token} {j : Nat} (h : readLBrace file p t j = .ok p') :
    p'.message = p.message ∧ p'.isEnum = p.isEnum ∧
      p'.startOfVariables = if t.kind = .LBRACE then j + 1 else p.startOfVariables := by
  unfold readLBrace at h
  split at h
  next lbrace =>
    split at h
    · cases h
    · cases Except.ok.inj h
      exact ⟨rfl, rfl, by rw [if_pos lbrace]⟩
  next other =>
    cases Except.ok.inj h
    exact ⟨rfl, rfl, by rw [if_neg other]⟩

theorem readTail_keeps (p : Processing) (t : Token) :
    (p.readTail t).message.vars = p.message.vars ∧ (p.readTail t).isEnum = p.isEnum ∧
      (p.readTail t).startOfVariables = p.startOfVariables := by
  unfold readTail
  split_ifs <;> exact ⟨rfl, rfl, rfl⟩

/-- What one token does: only a closing brace sets the declarations, from the tokens since the opening
brace but the last one. -/
theorem processToken_ok {p p' : Processing} {t : Token} {j : Nat}
    (h : processToken file available tokens p (t, j) = .ok p') :
    p'.isEnum = (p.isEnum || t.kind = .ENUM) ∧
      p'.startOfVariables = (if t.kind = .LBRACE then j + 1 else p.startOfVariables) ∧
      (t.kind ≠ .RBRACE → p'.message.vars = p.message.vars) ∧
      (t.kind = .RBRACE → ∃ name sidecars message read,
        readBody file available name p.isEnum sidecars message
          (slice tokens p.startOfVariables ((j : Int) - 1)) = .ok read ∧
        p'.message.vars = read.1.vars) := by
  obtain ⟨p₁, keyword, h⟩ := bind_eq_ok.mp h
  obtain ⟨p₂, name, h⟩ := bind_eq_ok.mp h
  obtain ⟨p₃, lbrace, h⟩ := bind_eq_ok.mp h
  obtain ⟨p₄, rbrace, h⟩ := bind_eq_ok.mp h
  cases Except.ok.inj h
  have newline : (p.readNewLine t j).message = p.message ∧ (p.readNewLine t j).isEnum = p.isEnum ∧
      (p.readNewLine t j).startOfVariables = p.startOfVariables := by
    unfold readNewLine
    split_ifs <;> exact ⟨rfl, rfl, rfl⟩
  obtain ⟨vars₁, isEnum₁, start₁⟩ := readKeyword_ok keyword
  obtain ⟨message₂, isEnum₂, start₂⟩ := readName_ok name
  obtain ⟨message₃, isEnum₃, start₃⟩ := readLBrace_ok lbrace
  obtain ⟨vars₅, isEnum₅, start₅⟩ := readTail_keeps p₄ t
  rw [newline.1] at vars₁
  rw [newline.2.1] at isEnum₁
  rw [newline.2.2] at start₁
  have vars : p₃.message.vars = p.message.vars := by
    rw [message₃, ← vars₁, ← message₂]
  have isEnum : p₃.isEnum = (p.isEnum || t.kind = .ENUM) := by
    rw [isEnum₃, ← isEnum₁, ← isEnum₂]
  have start : p₃.startOfVariables = if t.kind = .LBRACE then j + 1 else p.startOfVariables := by
    rw [start₃, ← start₁, ← start₂]
  rw [isEnum₅, start₅, vars₅]
  unfold readRBrace at rbrace
  split at rbrace
  next close =>
    obtain ⟨⟨message, sidecars⟩, read, rbrace⟩ := bind_eq_ok.mp rbrace
    cases Except.ok.inj rbrace
    refine ⟨isEnum, start, fun other => absurd close other, fun _ =>
      ⟨p₃.name, p₃.sidecars, p₃.message, (message, sidecars), ?_, rfl⟩⟩
    simpa [isEnum, start, close] using read
  next other =>
    cases Except.ok.inj rbrace
    exact ⟨isEnum, start, fun _ => vars, fun close => absurd close other⟩

/-- A run of tokens: the flag collects the `enum` keywords, and without braces the rest stands. -/
theorem fold_ok {ts : List Token} {j : Nat} {p q : Processing}
    (h : (ts.zipIdx j).foldlM (processToken file available tokens) p = .ok q) :
    q.isEnum = (p.isEnum || ts.any fun t => t.kind = .ENUM) ∧
      ((∀ t ∈ ts, t.kind ≠ .LBRACE) → q.startOfVariables = p.startOfVariables) ∧
      ((∀ t ∈ ts, t.kind ≠ .RBRACE) → q.message.vars = p.message.vars) := by
  induction ts generalizing j p with
  | nil =>
    cases Except.ok.inj h
    exact ⟨by simp, fun _ => rfl, fun _ => rfl⟩
  | cons t ts ih =>
    rw [List.zipIdx_cons, List.foldlM_cons] at h
    obtain ⟨p', step, rest⟩ := bind_eq_ok.mp h
    obtain ⟨isEnum, start, vars, _⟩ := processToken_ok step
    obtain ⟨isEnum', start', vars'⟩ := ih rest
    refine ⟨by rw [isEnum', isEnum, List.any_cons, Bool.or_assoc], fun open_ => ?_, fun close => ?_⟩
    · rw [start' fun t ht => open_ t (List.mem_cons_of_mem _ ht), start,
        if_neg (open_ t (List.mem_cons_self ..))]
    · rw [vars' fun t ht => close t (List.mem_cons_of_mem _ ht), vars (close t (List.mem_cons_self ..))]

theorem freezeFieldNumbers_names {name : Option String} {sidecars : Sidecars}
    {vars : List ParsedVariable} {frozen : List ParsedVariable × Sidecars}
    (h : freezeFieldNumbers file name sidecars vars = .ok frozen) :
    frozen.1.map ParsedVariable.name = vars.map ParsedVariable.name := by
  unfold freezeFieldNumbers freeze at h
  cases hl : load .ascii (sidecars (name.getD "None")) with
  | none => simp [hl] at h
  | some m =>
    simp only [hl] at h
    split at h
    · cases h
    · cases h
    next indices content hok =>
      cases Except.ok.inj h
      split at hok
      · cases hok
      · obtain ⟨rfl, _⟩ := Frozen.ok.inj hok
        have length : (resolvedNumbers m (vars.map ParsedVariable.variable)).length = vars.length := by
          rw [resolvedNumbers_length, List.length_map]
        refine List.ext_getElem (by simp [length]) fun i hi hi' => ?_
        simp

/-- What a closing brace stores. -/
theorem readBody_vars {name : Option String} {isEnum : Bool} {sidecars : Sidecars}
    {message : ParsedMessage} {body : List Token} {read : ParsedMessage × Sidecars}
    (h : readBody file available name isEnum sidecars message body = .ok read) :
    (isEnum = true → ∃ values, EnumValues.process file body = .ok values ∧
      read.1.vars = .values values) ∧
    (isEnum = false → ∃ vars, read.1.vars = .fields vars ∧
      ∃ declared dependencies, Variables.process file available body = .ok (declared, dependencies) ∧
        vars.map ParsedVariable.name = declared.map ParsedVariable.name) := by
  unfold readBody at h
  split at h
  next enum =>
    obtain ⟨values, accepted, h⟩ := bind_eq_ok.mp h
    cases Except.ok.inj h
    exact ⟨fun _ => ⟨values, accepted, rfl⟩, fun plain => by simp [enum] at plain⟩
  next plain =>
    obtain ⟨⟨declared, dependencies⟩, accepted, h⟩ := bind_eq_ok.mp h
    obtain ⟨⟨vars, sidecars⟩, frozen, h⟩ := bind_eq_ok.mp h
    cases Except.ok.inj h
    refine ⟨fun enum => absurd enum plain, fun _ => ⟨vars, rfl, declared, dependencies, accepted,
      freezeFieldNumbers_names frozen⟩⟩

theorem finish_vars {p : Processing} {m : ParsedMessage} {sidecars : Sidecars}
    (h : p.finish file = .ok (m, sidecars)) : m.vars = p.message.vars := by
  unfold finish at h
  split at h
  · cases h
  · split at h
    · cases h
    · cases Except.ok.inj h
      rfl

end Processing

/-- The cut at a closing brace leaves out the token before it. -/
theorem slice_dropLast {α : Type} (before body after : List α) (t : α) :
    slice (before ++ t :: (body ++ after)) ((before.length + 1 : Nat) : Int)
      (((0 + before.length + 1 + body.length : Nat) : Int) - 1) = body.dropLast := by
  have stop : ((0 + before.length + 1 + body.length : Nat) : Int) - 1 =
      (before.length + body.length : Nat) := by omega
  rw [stop, slice_natCast]
  rcases List.eq_nil_or_concat' body with rfl | ⟨front, last, rfl⟩
  · simp
  · have take : (before ++ t :: (front ++ [last] ++ after)).take
        (before.length + (front ++ [last]).length) = (before ++ [t]) ++ front := by
      have length : before.length + (front ++ [last]).length = ((before ++ [t]) ++ front).length := by
        simp only [List.length_append, List.length_singleton]
        omega
      have split : before ++ t :: (front ++ [last] ++ after) =
          ((before ++ [t]) ++ front) ++ (last :: after) := by simp
      rw [length, split, List.take_left]
    have length : before.length + 1 = (before ++ [t]).length := by simp
    rw [take, length, List.drop_left, List.dropLast_concat]

/-- Between its braces a definition has an `enum` keyword before it or not; the body, but for its last
token, is read. -/
theorem Message.process_vars {file : String} {available : List String} {sidecars sidecars' : Sidecars}
    {before body tail : List Token} {lbrace rbrace : Token} {m : ParsedMessage}
    (opens : lbrace.kind = .LBRACE) (closes : rbrace.kind = .RBRACE)
    (inner : ∀ t ∈ body, t.kind ≠ .LBRACE) (last : ∀ t ∈ tail, t.kind ≠ .RBRACE)
    (accepted : Message.process file available sidecars
      (before ++ lbrace :: (body ++ rbrace :: tail)) = .ok (m, sidecars')) :
    ∃ name sidecars message read, Processing.readBody file available name
        ((before ++ body).any fun t => t.kind = .ENUM) sidecars message body.dropLast = .ok read ∧
      m.vars = read.1.vars := by
  obtain ⟨q, fold, finished⟩ := bind_eq_ok.mp accepted
  rw [List.zipIdx_append, List.foldlM_append] at fold
  obtain ⟨p₁, fold₁, fold⟩ := bind_eq_ok.mp fold
  rw [List.zipIdx_cons, List.foldlM_cons] at fold
  obtain ⟨p₂, step₂, fold⟩ := bind_eq_ok.mp fold
  rw [List.zipIdx_append, List.foldlM_append] at fold
  obtain ⟨p₃, fold₃, fold⟩ := bind_eq_ok.mp fold
  rw [List.zipIdx_cons, List.foldlM_cons] at fold
  obtain ⟨p₄, step₄, fold⟩ := bind_eq_ok.mp fold
  obtain ⟨isEnum₁, _⟩ := Processing.fold_ok fold₁
  obtain ⟨isEnum₂, start₂, _⟩ := Processing.processToken_ok step₂
  obtain ⟨isEnum₃, start₃, _⟩ := Processing.fold_ok fold₃
  obtain ⟨_, _, _, close⟩ := Processing.processToken_ok step₄
  obtain ⟨name, sidecars₄, message, read, hread, vars₄⟩ := close closes
  have isEnum : p₃.isEnum = (before ++ body).any fun t => t.kind = .ENUM := by
    rw [isEnum₃, isEnum₂, isEnum₁, opens, List.any_append]
    simp
  have start : p₃.startOfVariables = before.length + 1 := by
    rw [start₃ inner, start₂, if_pos opens]
    simp
  have cut : Harpia.slice (before ++ lbrace :: (body ++ rbrace :: tail)) p₃.startOfVariables
      (((0 + before.length + 1 + body.length : Nat) : Int) - 1) = body.dropLast := by
    rw [start]
    exact slice_dropLast before body (rbrace :: tail) lbrace
  rw [isEnum, cut] at hread
  refine ⟨name, sidecars₄, message, read, hread, ?_⟩
  rw [Processing.finish_vars finished, (Processing.fold_ok fold).2.2 last, vars₄]

/-- What the declarations of a message should be: the declared fields in order among the hidden ones,
or the declared enumerators in any order. -/
def Declarations.Hold (body : List Token) : Declarations → Prop
  | .fields vars => vars.map (fun var => some var.name) =
    some "HARPIA_ID" :: declared body ++
      [some "HARPIA_STATUS", some "HARPIA_ERROR", some "HARPIA_ORIGINATOR"]
  | .values enumerators => (enumerators.map fun value => some value.1).Perm (declared body)

instance (body : List Token) (declarations : Declarations) : Decidable (declarations.Hold body) :=
  match declarations with
  | .fields _ => inferInstanceAs (Decidable (_ = _))
  | .values _ => inferInstanceAs (Decidable (List.Perm _ _))

/-- No `;` right before the closing brace and, in a message, each `;` right after its name. -/
def CompleteBody (before body : List Token) : Prop :=
  body.getLast?.map Token.kind ≠ some .PCOMMA ∧
    ((∀ t ∈ before ++ body, t.kind ≠ .ENUM) → (declaredNames body).map some = declared body)

instance (before body : List Token) : Decidable (CompleteBody before body) :=
  inferInstanceAs (Decidable (_ ∧ _))

/-- An accepted definition holds all its declarations exactly when it is complete. -/
theorem process_declarations_iff {file : String} {available : List String}
    {sidecars sidecars' : Sidecars} {before body tail : List Token} {lbrace rbrace : Token}
    {m : ParsedMessage} (opens : lbrace.kind = .LBRACE) (closes : rbrace.kind = .RBRACE)
    (inner : ∀ t ∈ body, t.kind ≠ .LBRACE) (last : ∀ t ∈ tail, t.kind ≠ .RBRACE)
    (accepted : Message.process file available sidecars
      (before ++ lbrace :: (body ++ rbrace :: tail)) = .ok (m, sidecars')) :
    m.vars.Hold body ↔ CompleteBody before body := by
  obtain ⟨name, sidecars₁, message, read, hread, vars⟩ :=
    Message.process_vars opens closes inner last accepted
  obtain ⟨asEnum, asMessage⟩ := Processing.readBody_vars hread
  rw [vars]
  by_cases enum : ((before ++ body).any fun t => t.kind = .ENUM) = true
  · obtain ⟨values, processed, hvalues⟩ := asEnum enum
    have perm := EnumValues.process_names processed
    have free : ¬ ∀ t ∈ before ++ body, t.kind ≠ .ENUM := by
      obtain ⟨t, ht, hk⟩ := List.any_eq_true.mp enum
      exact fun none => none t ht (of_decide_eq_true hk)
    rw [hvalues, Declarations.Hold, CompleteBody]
    constructor
    · intro holds
      refine ⟨fun ends => ?_, fun none => absurd none free⟩
      have lengths := holds.length_eq.symm.trans perm.length_eq
      rw [declared_dropLast_length ends] at lengths
      omega
    · intro complete
      rwa [(declared_dropLast complete.1).1] at perm
  · obtain ⟨stored, hstored, fields, dependencies, processed, names⟩ := asMessage (by simpa using enum)
    have collected := (Variables.process_names processed).1
    have free : ∀ t ∈ before ++ body, t.kind ≠ .ENUM := fun t ht hk =>
      enum (List.any_eq_true.mpr ⟨t, ht, decide_eq_true hk⟩)
    have stored_names : stored.map (fun var => some var.name) = some "HARPIA_ID" ::
        (declaredNames body.dropLast).map some ++
          [some "HARPIA_STATUS", some "HARPIA_ERROR", some "HARPIA_ORIGINATOR"] := by
      have := congrArg (List.map some) (names.trans collected)
      rwa [List.map_map, List.map_append, List.map_cons] at this
    rw [hstored, Declarations.Hold, stored_names, CompleteBody, List.append_cancel_right_eq,
      List.cons.injEq, eq_self_iff_true, true_and]
    constructor
    · intro holds
      have ends : body.getLast?.map Token.kind ≠ some .PCOMMA := by
        intro ends
        have lengths := congrArg List.length holds
        rw [List.length_map, declared_dropLast_length ends, declared,
          declaredFrom_length _ "" body.dropLast, declaredNames] at lengths
        omega
      rw [(declared_dropLast ends).2] at holds
      exact ⟨ends, fun _ => holds⟩
    · intro complete
      rw [(declared_dropLast complete.1).2]
      exact complete.2 free

/-- `message x`, a brace, `int a;` on the next line and what is given up to the closing brace. -/
def oneField (rest : List Token) : List Token × List Token :=
  ([.of .MESSAGE "message", .of .ID "x"],
    [.of .NEWLINE "\n", .of .INT32 "int", .of .ID "a", .of .PCOMMA ";"] ++ rest)

def oneFieldTokens (rest : List Token) : List Token :=
  (oneField rest).1 ++ .of .LBRACE "\x7b" :: ((oneField rest).2 ++ .of .RBRACE "\x7d" ::
    [.of .NEWLINE "\n"])

theorem process_declarations_iff_newline : ∃ m sidecars,
    Message.process "test.harpia" [] (fun _ => none) (oneFieldTokens [.of .NEWLINE "\n"]) =
        .ok (m, sidecars) ∧
      (m.vars.Hold (oneField [.of .NEWLINE "\n"]).2 ↔
        CompleteBody (oneField [.of .NEWLINE "\n"]).1 (oneField [.of .NEWLINE "\n"]).2) := by
  obtain ⟨⟨m, sidecars⟩, accepted⟩ := exists_of_isOk
    (x := Message.process "test.harpia" [] (fun _ => none) (oneFieldTokens [.of .NEWLINE "\n"]))
    (by decide +kernel)
  exact ⟨m, sidecars, accepted,
    process_declarations_iff (by decide) (by decide) (by decide) (by decide) accepted⟩

theorem not_process_declarations_sameLine :
    ¬ ∀ (file : String) (available : List String) (sidecars sidecars' : Sidecars)
      (before body tail : List Token) (lbrace rbrace : Token) (m : ParsedMessage),
      lbrace.kind = .LBRACE → rbrace.kind = .RBRACE → (∀ t ∈ body, t.kind ≠ .LBRACE) →
      (∀ t ∈ tail, t.kind ≠ .RBRACE) →
      Message.process file available sidecars (before ++ lbrace :: (body ++ rbrace :: tail)) =
        .ok (m, sidecars') →
      m.vars.Hold body := by
  intro h
  obtain ⟨⟨m, sidecars⟩, accepted⟩ := exists_of_isOk
    (x := Message.process "test.harpia" [] (fun _ => none) (oneFieldTokens [])) (by decide +kernel)
  have holds := h _ _ _ _ _ _ _ _ _ m (by decide) (by decide) (by decide) (by decide) accepted
  have lost : (Message.process "test.harpia" [] (fun _ => none) (oneFieldTokens [])).map
      (fun read => decide (read.1.vars.Hold (oneField []).2)) = .ok false := by decide +kernel
  rw [accepted] at lost
  exact absurd holds (of_decide_eq_false (Except.ok.inj lost))

end Harpia
