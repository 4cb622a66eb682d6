import TreeComparison.Walk.Basic

/-!
The flat list of everything below a directory: the path of each entry, and after the path of a
directory the paths of what is in it. Links are listed and not entered.
-/

namespace TreeComparison.Walk

/-- The paths of the entries with the given names and of all that is below them. -/
def pathsOf (u : User) (inside : DirectoryId → String → Walk (List String)) (d : DirectoryId)
    (path : String) : List Name → Walk (List String)
  | [] => pure []
  | name :: rest => do
    let child := joinPath path name.bytes
    found (.enumerated child)
    let below ← match ← ask fun s => s.stat u d name.bytes with
      | .error r => do
        skip child .stat (.system r)
        pure []
      | .ok shown =>
        if shown.isDirectory then
          match ← ask fun s => s.openDirectory u d name.bytes with
          | .ok e => inside e child
          | .error r => do
            skip child .openDirectory (.system r)
            pure []
        else pure []
    let others ← pathsOf u inside d path rest
    return child :: (below ++ others)

/-- The paths of everything below a directory, at most so many levels down. -/
def subtree (u : User) : Nat → DirectoryId → String → Walk (List String)
  | 0, _, _ => pure []
  | levels + 1, d, path => do
    match ← ask fun s => s.names u d with
    | .error r => do
      skip path .readDir (.system r)
      pure []
    | .ok names => pathsOf u (subtree u levels) d path names

end TreeComparison.Walk
