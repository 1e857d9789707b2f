import ResumableQuery.Document.Basic
import ResumableQuery.Ordered

/-!
# Configuration

Execution settings are read from a structured document.  A setting that the document does not give
has its default, and settings that are not known are passed over.
-/

namespace ResumableQuery

/-- Operations that are applied to several rows at a time. -/
inductive PipelineOperation where
  | keyToRecord
  | indexToRecord
  | resolve
  | insert
  deriving DecidableEq, Repr

namespace PipelineOperation

/-- All operations in order. -/
def all : List PipelineOperation := [keyToRecord, indexToRecord, resolve, insert]

/-- Place of an operation among all. -/
def place : PipelineOperation → Nat
  | keyToRecord => 0
  | indexToRecord => 1
  | resolve => 2
  | insert => 3

instance : Ord PipelineOperation := ⟨fun a b => compare a.place b.place⟩

/-- Name of an operation. -/
def name : PipelineOperation → String
  | keyToRecord => "key_to_record"
  | indexToRecord => "index_to_record"
  | resolve => "resolve"
  | insert => "insert"

/-- The operation of a name. -/
def ofName? (s : String) : Option PipelineOperation := all.find? (·.name == s)

end PipelineOperation

/-- Why settings cannot be read. -/
inductive ConfigError where
  /-- A document of another kind than expected. -/
  | kind (found : Document) (expected : String)
  /-- A number that is out of range. -/
  | range (found : Int) (expected : String)
  /-- An operation of an unknown name. -/
  | operation (name : String)
  /-- More positional settings than there are settings. -/
  | tooMany (count : Nat)

/-- Wording of a configuration error. -/
def ConfigError.message : ConfigError → String
  | .kind found expected => "invalid type: " ++ found.describe ++ ", expected " ++ expected
  | .range found expected =>
    "invalid value: integer `" ++ toString found ++ "`, expected " ++ expected
  | .operation name =>
    "unknown variant `" ++ name ++ "`, expected one of " ++
      ", ".intercalate (PipelineOperation.all.map fun op => "`" ++ op.name ++ "`")
  | .tooMany count => s!"invalid length {count}, expected fewer elements in array"

/-- Settings that all cursors over one store share. -/
structure Config where
  /-- How many applications of an operation may be under way, where set. -/
  pipelineSizes : List (PipelineOperation × Nat)
  /-- How many applications of any other operation may be under way. -/
  defaultPipelineSize : Nat
  /-- How many stored pairs are read at a time. -/
  scanBatchSize : Nat
  /-- The most documents that are looked up for an auto-completion. -/
  autoCompleteSearchLimit : Nat
  /-- The longest text, in characters, that an auto-completion looks at. -/
  autoCompleteTextLimit : Nat
  /-- How many hits a search reads at a time. -/
  searchPageSize : Nat
  deriving Repr

namespace Config

/-- The settings where nothing is set. -/
def standard : Config := ⟨[], 10, 100, 10000, 32768, 200⟩

/-- How many applications of an operation may be under way, at least one. -/
def pipelineSize (c : Config) (op : PipelineOperation) : Nat :=
  max 1 ((Ordered.find? op c.pipelineSizes).getD c.defaultPipelineSize)

/-- A setting by name. -/
inductive Setting where
  | pipelineSize (op : PipelineOperation)
  | defaultPipelineSize
  | scanBatchSize
  | autoCompleteSearchLimit
  | autoCompleteTextLimit
  | searchPageSize
  deriving DecidableEq, Repr

/-- Names of the settings in their order. -/
def names : List String :=
  ["pipeline_sizes", "default_pipeline_size", "scan_batch_size", "auto_complete_search_limit",
    "auto_complete_text_size_upper_limit", "search_page_size"]

/-- The setting of a name; an operation stands for the size of its pipeline. -/
def Setting.ofName? (name : String) : Option Setting :=
  match PipelineOperation.ofName? name with
  | some op => some (.pipelineSize op)
  | none =>
    match names.idxOf name with
    | 1 => some .defaultPipelineSize
    | 2 => some .scanBatchSize
    | 3 => some .autoCompleteSearchLimit
    | 4 => some .autoCompleteTextLimit
    | 5 => some .searchPageSize
    | _ => none

/-- The settings with one changed.  Batches and pages have at least one member. -/
def set (c : Config) (s : Setting) (n : Nat) : Config :=
  match s with
  | .pipelineSize op => { c with pipelineSizes := Ordered.insert op n c.pipelineSizes }
  | .defaultPipelineSize => { c with defaultPipelineSize := n }
  | .scanBatchSize => { c with scanBatchSize := max 1 n }
  | .autoCompleteSearchLimit => { c with autoCompleteSearchLimit := n }
  | .autoCompleteTextLimit => { c with autoCompleteTextLimit := n }
  | .searchPageSize => { c with searchPageSize := max 1 n }

/-- The counts among the settings by name. -/
def counts (c : Config) : List (String × Nat) :=
  names.tail.zip [c.defaultPipelineSize, c.scanBatchSize, c.autoCompleteSearchLimit,
    c.autoCompleteTextLimit, c.searchPageSize]

/-- Reads a count. -/
def readCount : Document → Except ConfigError Nat
  | .int i =>
    if i < 0 then .error (.range i "usize")
    else if i < UInt64.size then .ok i.toNat
    else .error (.kind (.int i) "usize")
  | d => .error (.kind d "usize")

/-- Reads the sizes of operations. -/
def readSizes : Document → Except ConfigError (List (PipelineOperation × Nat))
  | .object entries => do
    let sizes ← entries.mapM fun (name, d) => do
      match PipelineOperation.ofName? name with
      | some op => return (op, ← readCount d)
      | none => .error (.operation name)
    return Ordered.ofList sizes
  | d => .error (.kind d "a map")

/-- The settings with the one at a place in their order read from a document. -/
def readAt (c : Config) (place : Nat) (d : Document) : Except ConfigError Config :=
  match place with
  | 0 => do return { c with pipelineSizes := ← readSizes d }
  | 1 => do return { c with defaultPipelineSize := ← readCount d }
  | 2 => do return { c with scanBatchSize := ← readCount d }
  | 3 => do return { c with autoCompleteSearchLimit := ← readCount d }
  | 4 => do return { c with autoCompleteTextLimit := ← readCount d }
  | 5 => do return { c with searchPageSize := ← readCount d }
  | _ => .ok c

/-- The settings that a document gives, by name or by place. -/
def ofDocument : Document → Except ConfigError Config
  | .object entries =>
    entries.foldlM (fun c (name, d) => c.readAt (names.idxOf name) d) standard
  | .list items => do
    let c ← (items.zipIdx).foldlM (fun c (d, place) => c.readAt place d) standard
    if names.length < items.length then .error (.tooMany items.length) else return c
  | d => .error (.kind d "struct ExecuteConfig")

end Config

end ResumableQuery
