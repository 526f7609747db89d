import Harpia.DaoSession

namespace Harpia

open Sqlite Attempt

/-- The database as a connection sees it, and as it was when something was last committed. -/
structure Connection where
  session : DbSession
  committed : Db

namespace Connection

/-- A connection with nothing pending. -/
def opened (s : DbSession) : Connection := ⟨s, s.db⟩

def commit (c : Connection) : Connection := .opened c.session

def rollback (c : Connection) : Connection := .opened (c.session.withDb c.committed)

end Connection

/-- `_tx`: committed at its end, rolled back where an exception leaves it. A `COMMIT` that raises is
not rolled back, and leaves the statements pending. -/
def transaction {α : Type} (exec : (r : Request) → DbSession → Option (Answer r × DbSession))
    (commits : Bool) (program : Cursor α) : Attempt Connection α := fun c =>
  match program.attempt exec c.session with
  | (some a, s') => if commits then (some a, .opened s') else (none, { c with session := s' })
  | (none, s') => (none, Connection.rollback { c with session := s' })

section Transaction

variable {α : Type} {exec : (r : Request) → DbSession → Option (Answer r × DbSession)} {commits : Bool}
  {program : Cursor α} {c c' : Connection}

/-- What returns has been committed. -/
theorem transaction_committed {a : α} (h : transaction exec commits program c = (some a, c')) :
    ∃ s', program.attempt exec c.session = (some a, s') ∧ c' = .opened s' := by
  unfold transaction at h
  split at h
  · next a' s' ended =>
    split at h
    · cases h
      exact ⟨s', ended, rfl⟩
    · cases h
  · cases h

/-- What raises has been rolled back, or is pending whole. -/
theorem transaction_raised (h : transaction exec commits program c = (none, c')) :
    c'.committed = c.committed ∧ (c'.session.db = c.committed ∨
      commits = false ∧ ∃ a, program.attempt exec c.session = (some a, c'.session)) := by
  unfold transaction at h
  split at h
  · next a s' ended =>
    split at h
    · cases h
    next raised =>
      cases h
      exact ⟨rfl, .inr ⟨Bool.eq_false_iff.mpr raised, a, ended⟩⟩
  · cases h
    exact ⟨rfl, .inl rfl⟩

/-- It holds as the connection stands, and would after a rollback. -/
def Connection.Each (P : DbSession → Prop) (c : Connection) : Prop := P c.session ∧ P c.rollback.session

theorem Connection.each_opened {P : DbSession → Prop} {s : DbSession} (h : P s) : (opened s).Each P :=
  ⟨h, h⟩

theorem Connection.Each.commit {P : DbSession → Prop} (h : c.Each P) : c.commit.Each P :=
  each_opened h.1

theorem Connection.Each.rollback {P : DbSession → Prop} (h : c.Each P) : c.rollback.Each P :=
  each_opened h.2

/-- What a program keeps where it ends, a transaction keeps however it ends. -/
theorem transaction_each {P : DbSession → Prop}
    (ends : Triple (fun s => s = c.session) (program.attempt exec) (fun _ => P) fun _ => True)
    (rolled : P ((program.attempt exec c.session).2.withDb c.committed)) :
    (transaction exec commits program c).2.Each P := by
  unfold transaction
  cases done : program.attempt exec c.session with
  | mk result s' =>
    rw [done] at rolled
    cases result with
    | none => exact Connection.each_opened rolled
    | some a =>
      have ended := ends.ends rfl (congrArg Prod.fst done)
      rw [done] at ended
      cases commits with
      | true => exact Connection.each_opened ended
      | false => exact ⟨ended, rolled⟩

end Transaction

end Harpia
