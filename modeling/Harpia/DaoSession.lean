import Harpia.DaoRuntime
import Harpia.Lib.Attempt

namespace Harpia

open Sqlite Proto

/-- A SQLite connection: its database, and the random bytes still to come. -/
structure DbSession where
  db : Db
  random : Nat → Bytes

namespace DbSession

def withDb (s : DbSession) (db : Db) : DbSession := { s with db := db }

end DbSession

def Cell.binding (c : Cell) : String × Value := (c.column, c.value)

/-- What the database does with a request. -/
def Request.exec : (r : Request) → DbSession → Option (Answer r × DbSession)
  | .insert table cells, s =>
    (s.db.insert table (cells.map Cell.binding)).map fun r => (r.2, s.withDb r.1)
  | .update table cells key, s =>
    (s.db.update table (cells.map Cell.binding) pk key).map fun r => (r.2, s.withDb r.1)
  | .delete table column v, s => (s.db.delete table column v).map fun r => (r.2, s.withDb r.1)
  | .tokenBytes, s => some (s.random 0, { s with random := fun n => s.random (n + 1) })

/-- `update`: one transaction, rolled back where an exception leaves it. -/
def daoUpdate (E : DaoEnv) (fuel : Nat) (p : KeyProvider) (dao : Dao) (msg : Msg) :
    Attempt DbSession Bool := fun s =>
  match (updateIn E fuel p dao msg).attempt Request.exec s with
  | (some found, s') => (some found, s')
  | (none, s') => (none, s'.withDb s.db)

end Harpia
