/-!
# Association lists in key order

Stores, field maps, term dictionaries and directories are finite maps whose entries are always
read in key order.  They are kept as association lists with strictly increasing keys; `insert`
and `erase` keep that order, and `find?` is the map the list stands for.
-/

namespace ResumableQuery.Ordered

variable {κ ν : Type} [Ord κ]

/-- The value held under a key. -/
def find? (k : κ) : List (κ × ν) → Option ν
  | [] => none
  | (k', v) :: rest =>
    match compare k k' with
    | .lt => none
    | .eq => some v
    | .gt => find? k rest

/-- The entries with `k` bound to `v`, replacing an earlier binding of `k`. -/
def insert (k : κ) (v : ν) : List (κ × ν) → List (κ × ν)
  | [] => [(k, v)]
  | (k', v') :: rest =>
    match compare k k' with
    | .lt => (k, v) :: (k', v') :: rest
    | .eq => (k, v) :: rest
    | .gt => (k', v') :: insert k v rest

/-- The entries without a binding of `k`. -/
def erase (k : κ) : List (κ × ν) → List (κ × ν)
  | [] => []
  | (k', v') :: rest =>
    match compare k k' with
    | .lt => (k', v') :: rest
    | .eq => rest
    | .gt => (k', v') :: erase k rest

/-- Whether a key is bound. -/
def contains (k : κ) (entries : List (κ × ν)) : Bool := (find? k entries).isSome

/-- The entries of a list inserted one after the other, so a later binding of a key wins. -/
def ofList (entries : List (κ × ν)) : List (κ × ν) :=
  entries.foldl (fun acc e => insert e.1 e.2 acc) []

/-- A strictly increasing list with `k` in it. -/
def insertKey (k : κ) : List κ → List κ
  | [] => [k]
  | k' :: rest =>
    match compare k k' with
    | .lt => k :: k' :: rest
    | .eq => k' :: rest
    | .gt => k' :: insertKey k rest

/-- A strictly increasing list without `k`. -/
def eraseKey (k : κ) : List κ → List κ
  | [] => []
  | k' :: rest =>
    match compare k k' with
    | .lt => k' :: rest
    | .eq => rest
    | .gt => k' :: eraseKey k rest

/-- Whether a strictly increasing list holds `k`. -/
def member (k : κ) : List κ → Bool
  | [] => false
  | k' :: rest =>
    match compare k k' with
    | .lt => false
    | .eq => true
    | .gt => member k rest

/-- The members of a list, each once and in increasing order. -/
def keysOf (keys : List κ) : List κ := keys.foldl (fun acc k => insertKey k acc) []

end ResumableQuery.Ordered
