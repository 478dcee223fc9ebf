import Mathlib.Data.Nat.Notation

/-!
# What every part shares

Errors, column types and schemas, as `error.rs`, `catalog/column.rs` and `catalog/schema.rs`
declare them.
-/

namespace FerroDb

inductive FerroError where
  | io (msg : String)
  | notEnoughSpace
  | slotDeleted
  | keyNotFound
  | txn (msg : String)
  | constraint (msg : String)
  | bind (msg : String)
  | wal (msg : String)
  | branch (msg : String)
  | cow (msg : String)
  | merge (msg : String)
  | cellAbsent (msg : String)
  | eval (msg : String)
  | internal (msg : String)
  | corruption (msg : String)
  | unrepresentable (what : String) (len limit : ℕ)
  | notLeader (leader : Option String)
  /-- The process stops: an arithmetic operation Rust has no result for. -/
  | panic (msg : String)
deriving DecidableEq

def FerroError.display : FerroError → String
  | io e => "io error: " ++ e
  | notEnoughSpace => "not enough space in page"
  | slotDeleted => "the slot is delted"
  | keyNotFound => "key wasn't found"
  | txn s => "txn error: " ++ s
  | constraint s => "constraint error: " ++ s
  | bind s => "binding error: " ++ s
  | wal s => "wal error: " ++ s
  | branch s => "branch error: " ++ s
  | cow s => "cow page store error: " ++ s
  | merge s => "merge error: " ++ s
  | cellAbsent s => "cell absent: " ++ s
  | eval e => "evaluation error: " ++ e
  | internal e => "internal error (this is a bug in ferrodb): " ++ e
  | corruption e => "DATA CORRUPTION: " ++ e
  | unrepresentable what len limit =>
    s!"{what} is {len} bytes, which the on-disk length field cannot express (limit {limit}); " ++
      "refused rather than written truncated"
  | notLeader (some addr) =>
    s!"not the leader: this node does not accept writes. The leader is at {addr}; reconnect " ++
      "there. Reads served here could be stale, so they are refused too."
  | notLeader none =>
    "not the leader, and this node does not currently know who is - an election is in progress " ++
      "or this node is partitioned from the cluster. Retry shortly; do not treat this as the " ++
      "leader being down."
  | panic msg => msg

inductive DataType where
  | integer
  | float
  | varchar (n : ℕ)
  | boolean
  | bigInt
  | decimal
  | timestamp
deriving DecidableEq

/-- How a column type is spelled in SQL and in the change feed. -/
def DataType.display : DataType → String
  | .integer => "INTEGER"
  | .float => "FLOAT"
  | .boolean => "BOOLEAN"
  | .varchar n => s!"VARCHAR({n})"
  | .bigInt => "BIGINT"
  | .decimal => "DECIMAL"
  | .timestamp => "TIMESTAMP"

structure Column where
  name : String
  dataType : DataType
  nullable : Bool
deriving DecidableEq

/-- The columns of a table. The first one is its primary key. -/
structure Schema where
  columns : List Column
deriving DecidableEq

/-- A slot of the branch table, with the generation that tells its successive owners apart. -/
structure BranchId where
  id : ℕ
  generation : ℕ
deriving DecidableEq

namespace BranchId

def trunk : BranchId := ⟨0, 0⟩

end BranchId

end FerroDb
