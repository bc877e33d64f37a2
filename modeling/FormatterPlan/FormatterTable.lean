import FormatterPlan.Strategy
import FormatterPlan.TypeGraph.Discovery

/-! Formatter tables: the types that need a formatter, each name once, and their strategies.  An
entry is numbered by its position, which follows first discovery. -/

namespace FormatterPlan

structure TableEntry where
  type : TypeName
  strategy : Strategy
deriving DecidableEq

/-- The entries of a table, in order. -/
structure FormatterTable where
  entries : List TableEntry
deriving DecidableEq

namespace FormatterTable

def empty : FormatterTable := ⟨[]⟩

def idOf? (table : FormatterTable) (type : TypeName) : Option Nat :=
  table.entries.findIdx? (·.type == type)

def find? (table : FormatterTable) (type : TypeName) : Option TableEntry :=
  table.entries.find? (·.type == type)

/-- Adds an entry at the end, unless the type has one. -/
def insert (table : FormatterTable) (entry : TableEntry) : FormatterTable :=
  if table.entries.any (·.type == entry.type) then table else ⟨table.entries ++ [entry]⟩

def ofGraph (graph : TypeGraph) (strategies : List Strategy) : FormatterTable :=
  let entries := (graph.names.zip strategies).map fun (type, strategy) => ⟨type, strategy⟩
  (entries.filter (·.strategy.isTabled)).foldl insert empty

/-- The entries of several tables one after the other.  Of entries for one type the first is
kept. -/
def merge (tables : List FormatterTable) : FormatterTable :=
  (tables.flatMap (·.entries)).foldl insert empty

end FormatterTable

end FormatterPlan
