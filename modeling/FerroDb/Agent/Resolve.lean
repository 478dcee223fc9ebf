import FerroDb.Agent.Guard

/-!
# What a merge reports

The policies of columns, and the outcomes that a merge gives for what a branch wrote, after
`agent_sql/merge_engine.rs` and `tel/merge.rs`.
-/

namespace FerroDb.Agent

open Sql

inductive MergePolicy where
  | reject
  | lww
  | multiValue
  | additive
deriving DecidableEq

def MergePolicy.display : MergePolicy → String
  | .reject => "REJECT"
  | .lww => "LWW"
  | .multiValue => "MULTI_VALUE"
  | .additive => "ADDITIVE"

/-- The policy of every column; one that was never set is `reject`. -/
abbrev PolicyTable := TableId → ColId → MergePolicy

inductive ConflictKind where
  | contradictoryAssign
  | guardFailed
  | deleteVsWrite
  | schemaMismatch
  | guardUnevaluable
deriving DecidableEq

structure ConflictReport where
  kind : ConflictKind
  tbl : TableId
  row : RowId
  col : Option ColId
  violatedGuard : Option Guard
  ours : Option Op
  theirs : Option Op
  detail : String
deriving DecidableEq

structure DiscardedWrite where
  branch : BranchId
  op : Op
  policy : MergePolicy
  reason : String
deriving DecidableEq

inductive MergeOutcome where
  | clean
  | commuting (composed : List Op)
  | conflict (reports : List ConflictReport)
  | resolvedWithLoss (applied : List Op) (discarded : List DiscardedWrite)
deriving DecidableEq

end FerroDb.Agent
