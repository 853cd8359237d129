import Eureka.Bytes

/-!
# The radix tree of the HTTP router

The tree of `http_router/tree.h`, function by function.  A node owns its
children, so a tree is a value and a member function that mutates `*this`
returns the new node.  An insertion may throw after it has already changed the
tree, and the changes stay: every mutating function therefore returns the node
as it is left *together with* how the call ended.

A priority counts the routes below a node; it is an `int` in the source, so fewer
than `2 ^ 31` routes are meant.  A handler is a `std::function`, which may be empty;
`none` stands for an empty one.  `locate` returns a pointer to a handler, so its
result separates a null pointer from a pointer to an empty handler.

The insertion of a route descends through the tree.  It is written with a
bound on the number of calls (`fuel`), and `addRoute` gives it the height of
the tree; that this is always enough is part of `insertRoute_continues` in
`Steps.lean`.
-/

namespace Eureka.Router

/-- `'/'`. -/
def slash : Byte := '/'.toUInt8

/-- `':'`. -/
def colon : Byte := ':'.toUInt8

/-- `'*'`. -/
def star : Byte := '*'.toUInt8

/-- The characters of the set `":*"`, which start a wildcard. -/
def startsWildcard (c : Byte) : Bool := c == colon || c == star

/-- The characters of the set `":*/"`, which stop the name of a wildcard. -/
def stopsName (c : Byte) : Bool := c == colon || c == star || c == slash

/-- `struct param`. -/
structure Param where
  key : Bytes
  value : Bytes
deriving DecidableEq, Repr

/-- `struct wildcard_result`; `pos` is `none` for `npos`. -/
structure WildcardResult where
  name : Bytes
  pos : Option ℕ
deriving DecidableEq, Repr

def WildcardResult.found (result : WildcardResult) : Bool := result.pos.isSome

def WildcardResult.validName (result : WildcardResult) : Bool := decide (1 < result.name.length)

def unknownWildcard : WildcardResult := ⟨[], none⟩

/-- Finds a wildcard segment and then its name if that is valid. -/
def findWildcard (path : Bytes) : WildcardResult :=
  match path.findIdx? startsWildcard with
  | none => ⟨[], none⟩
  | some start =>
      match (path.drop (start + 1)).findIdx? stopsName with
      | none => ⟨path.drop start, some start⟩
      | some offset =>
          let stop := start + 1 + offset
          if path[stop]? = some slash then
            ⟨(path.drop start).take (stop - start), some start⟩
          else
            ⟨[], some start⟩

def longestCommonPrefix : Bytes → Bytes → ℕ
  | a :: s, b :: t => if a = b then longestCommonPrefix s t + 1 else 0
  | _, _ => 0

/-- `enum class type`. -/
inductive NodeType
  | plain
  | root
  | param
  | catchAll
deriving DecidableEq, Repr

/-- `class node`. -/
structure Node (H : Type) where
  path : Bytes
  indices : Bytes
  hasWildChild : Bool
  type : NodeType
  priority : ℤ
  children : List (Node H)
  handler : Option H

/-- The `std::invalid_argument` exceptions of the insertion, with the values
their texts are formatted from. -/
inductive RouteError
  | handlerRegistered (fullPath : Bytes)
  | wildcardConflict (segment fullPath wildcard existing : Bytes)
  | invalidWildcard (fullPath : Bytes)
  | childrenConflict (name fullPath : Bytes)
  | catchAllNotLast (fullPath : Bytes)
  | catchAllSegmentRoot (fullPath : Bytes)
  | catchAllWithoutSlash (fullPath : Bytes)
deriving DecidableEq, Repr

/-- What an insertion can run into apart from its exceptions: a failing
assertion, an access outside a container, or the bound of the model. -/
inductive Fault
  | assertion
  | outOfRange
  | outOfFuel
deriving DecidableEq, Repr

/-- How an insertion ends. -/
inductive Outcome
  | ok
  | invalidArgument (error : RouteError)
  | fault (fault : Fault)
deriving DecidableEq, Repr

namespace RouteError

def message : RouteError → Bytes
  | handlerRegistered fullPath =>
      ascii "a handler is already registered for path '" ++ fullPath ++ ascii "'"
  | wildcardConflict segment fullPath wildcard existing =>
      ascii "'" ++ segment ++ ascii "' in path '" ++ fullPath ++
        ascii "' conflicts with existing wildcard '" ++ wildcard ++ ascii "' in '" ++ existing ++
        ascii "'"
  | invalidWildcard fullPath => ascii "invalid wildcard in path '" ++ fullPath ++ ascii "'"
  | childrenConflict name fullPath =>
      ascii "wildcard segment '" ++ name ++ ascii "' conflicts with existing children in path '" ++
        fullPath ++ ascii "'"
  | catchAllNotLast fullPath =>
      ascii "catch-all is only allowed at the end of the path in '" ++ fullPath ++ ascii "'"
  | catchAllSegmentRoot fullPath =>
      ascii "catch-all conflicts with existing handle for path segment root in '" ++ fullPath ++
        ascii "'"
  | catchAllWithoutSlash fullPath =>
      ascii "no / before catch-all in path '" ++ fullPath ++ ascii "'"

/-- The route the exception is about. -/
def fullPath : RouteError → Bytes
  | handlerRegistered fullPath => fullPath
  | wildcardConflict _ fullPath _ _ => fullPath
  | invalidWildcard fullPath => fullPath
  | childrenConflict _ fullPath => fullPath
  | catchAllNotLast fullPath => fullPath
  | catchAllSegmentRoot fullPath => fullPath
  | catchAllWithoutSlash fullPath => fullPath

/-- Every exception text names the route that was rejected. -/
theorem fullPath_infix_message (error : RouteError) : error.fullPath <:+: error.message := by
  cases error with
  | wildcardConflict segment fullPath wildcard existing =>
      exact ⟨ascii "'" ++ segment ++ ascii "' in path '",
        ascii "' conflicts with existing wildcard '" ++ wildcard ++ ascii "' in '" ++ existing ++
          ascii "'",
        by simp only [message, RouteError.fullPath, List.append_assoc]⟩
  | childrenConflict name fullPath => exact ⟨_, _, rfl⟩
  | handlerRegistered fullPath => exact ⟨_, _, rfl⟩
  | invalidWildcard fullPath => exact ⟨_, _, rfl⟩
  | catchAllNotLast fullPath => exact ⟨_, _, rfl⟩
  | catchAllSegmentRoot fullPath => exact ⟨_, _, rfl⟩
  | catchAllWithoutSlash fullPath => exact ⟨_, _, rfl⟩

end RouteError

/-- The result of `locate`: a null pointer, a pointer to a handler, or the
`std::runtime_error` about a node of the wrong type. -/
inductive LocateResult (H : Type)
  | nullptr
  | found (handler : Option H)
  | invalidType (type : NodeType) (path : Bytes)
deriving DecidableEq, Repr

/-- Position of the first occurrence of `pattern` in `text`, as `string_view::find` gives it. -/
def findText (text pattern : Bytes) : Option ℕ :=
  (List.range (text.length + 1)).find? fun pos => pattern.isPrefixOf (text.drop pos)

/-- The element at `pos` is taken out, the elements from `newPos` on are shifted
right by one, and it is put back at `newPos`. -/
def moveLeft {α : Type} (items : List α) (newPos pos : ℕ) : List α :=
  items.take newPos ++ (items.drop pos).take 1 ++ (items.take pos).drop newPos ++
    items.drop (pos + 1)

namespace Node

variable {H : Type}

def empty : Node H := ⟨[], [], false, .plain, 0, [], none⟩

theorem sizeOf_lt_of_mem {child n : Node H} (hmem : child ∈ n.children) :
    sizeOf child < sizeOf n := by
  have hlt := List.sizeOf_lt_of_mem hmem
  cases n
  simp only [mk.sizeOf_spec] at hlt ⊢
  omega

/-- The number of nodes on a longest path down from the node. -/
def height (n : Node H) : ℕ :=
  (n.children.map height).foldr max 0 + 1
termination_by sizeOf n
decreasing_by exact sizeOf_lt_of_mem ‹_›

/-! ## `locate` -/

/-- `handler_ ? &handler_ : nullptr`. -/
def handlerPtr (n : Node H) : LocateResult H :=
  if n.handler.isSome then .found n.handler else .nullptr

/-- `node::locate`. -/
def locate (n : Node H) (path : Bytes) (params : List Param) : LocateResult H × List Param :=
  if path.length = n.path.length then
    (n.handlerPtr, params)
  else if n.path.length < path.length ∧ n.path <+: path then
    let path := path.drop n.path.length
    if !n.hasWildChild then
      match path.head?.bind fun idxc => n.indices.idxOf? idxc with
      | none => (.nullptr, params)
      | some pos =>
          match _hchild : n.children[pos]? with
          | none => (.nullptr, params)
          | some child => child.locate path params
    else
      match _hchild : n.children with
      | [] => (.nullptr, params)
      | child :: _ =>
          match child.type with
          | .param =>
              let params := params ++ [⟨child.path.drop 1, path.takeWhile (· ≠ slash)⟩]
              if slash ∉ path then
                (child.handlerPtr, params)
              else
                match _hgrand : child.children with
                | [] => (.nullptr, params)
                | grandChild :: _ => grandChild.locate (path.dropWhile (· ≠ slash)) params
          | .catchAll => (.found child.handler, params ++ [⟨child.path.drop 2, path⟩])
          | type => (.invalidType type child.path, params)
  else
    (.nullptr, params)
termination_by sizeOf n
decreasing_by
  · exact sizeOf_lt_of_mem (List.mem_of_getElem? _hchild)
  · refine (sizeOf_lt_of_mem (n := child) ?_).trans (sizeOf_lt_of_mem ?_)
    · rw [_hgrand]; exact List.mem_cons_self
    · rw [_hchild]; exact List.mem_cons_self

/-! ## Inserting a route -/

/-- The part of `insert_path` for a `'*'` wildcard at `pos`. -/
def insertCatchAll (n : Node H) (path fullPath name : Bytes) (pos : ℕ) (handler : Option H) :
    Node H × Outcome :=
  if pos + name.length ≠ path.length then
    (n, .invalidArgument (.catchAllNotLast fullPath))
  else if n.path.getLast? = some slash then
    (n, .invalidArgument (.catchAllSegmentRoot fullPath))
  else
    match pos with
    | 0 => (n, .fault .assertion)
    | pos + 1 =>
        if path[pos]? ≠ some slash then
          (n, .invalidArgument (.catchAllWithoutSlash fullPath))
        else
          let grandChild : Node H :=
            { empty with path := path.drop pos, type := .catchAll, priority := 1,
                         handler := handler }
          let child : Node H :=
            { empty with hasWildChild := true, type := .catchAll, priority := 1,
                         children := [grandChild] }
          ({ n with path := path.take pos, children := n.children ++ [child],
                    indices := [slash] }, .ok)

/-- `node::insert_path`. -/
def insertPath : ℕ → Node H → Bytes → Bytes → WildcardResult → Option H → Node H × Outcome
  | 0, n, _, _, _, _ => (n, .fault .outOfFuel)
  | fuel + 1, n, path, fullPath, given, handler =>
      -- without a wildcard given, `path` has not been scanned yet
      let wildcard := if given.found then given else findWildcard path
      match wildcard.pos with
      | none => ({ n with path := path, handler := handler }, .ok)
      | some pos =>
          if !given.found && !wildcard.validName then
            (n, .invalidArgument (.invalidWildcard fullPath))
          else if !given.found && !n.children.isEmpty then
            (n, .invalidArgument (.childrenConflict wildcard.name fullPath))
          else if wildcard.name.head? = some colon then
            let plainSegments := path.take pos
            let path := path.drop plainSegments.length
            let n := { n with path := if plainSegments.isEmpty then n.path else plainSegments,
                              hasWildChild := true }
            let child : Node H :=
              { empty with priority := 1, type := .param, path := wildcard.name }
            if path.length = wildcard.name.length then
              ({ n with children := n.children ++ [{ child with handler := handler }] }, .ok)
            else
              let (grandChild, outcome) := insertPath fuel { empty with priority := 1 }
                (path.drop wildcard.name.length) fullPath unknownWildcard handler
              ({ n with children := n.children ++ [{ child with children := [grandChild] }] },
                outcome)
          else
            n.insertCatchAll path fullPath wildcard.name pos handler

/-- The loop of `increment_child_priority`: how far left a child of priority
`prio` moves from a position. -/
def slideLeft (children : List (Node H)) (prio : ℤ) : ℕ → ℕ
  | 0 => 0
  | pos + 1 =>
      match children[pos]? with
      | none => pos + 1
      | some left => if left.priority < prio then slideLeft children prio pos else pos + 1

/-- `node::increment_child_priority`, with the node it leaves. -/
def incrementChildPriority (n : Node H) (pos : ℕ) : Except Fault (Node H × ℕ) :=
  if n.indices.length ≠ n.children.length then
    .error .assertion
  else
    match n.children[pos]? with
    | none => .error .outOfRange
    | some child =>
        let prio := child.priority + 1
        let children := n.children.set pos { child with priority := prio }
        let newPos := slideLeft children prio pos
        if newPos = pos then
          .ok ({ n with children := children }, newPos)
        else
          .ok ({ n with children := moveLeft children newPos pos,
                        indices := moveLeft n.indices newPos pos }, newPos)

/-- Splits the node to make its path equal to the common prefix. -/
def splitAt (n : Node H) (len : ℕ) : Node H :=
  let child : Node H :=
    { path := n.path.drop len, indices := n.indices, hasWildChild := n.hasWildChild,
      type := .plain, priority := n.priority - 1, children := n.children, handler := n.handler }
  { n with path := n.path.take len, indices := (n.path.drop len).take 1,
           hasWildChild := false, children := [child], handler := none }

/-- The exception for a route that conflicts with the wild child `child`. -/
def wildcardConflict (child : Node H) (path fullPath : Bytes) : RouteError :=
  let segment := if child.type ≠ .catchAll then path.takeWhile (· ≠ slash) else path
  let existing := match findText fullPath segment with
    | none => fullPath
    | some pos => fullPath.take pos
  .wildcardConflict segment fullPath child.path (existing ++ child.path)

/-- The body of `insert_route` after the split; `recurse` is the call of
`insert_route` on a child. -/
def continueRoute (recurse : Node H → Bytes → Node H × Outcome) (n : Node H) (len : ℕ)
    (path fullPath : Bytes) (handler : Option H) : Node H × Outcome :=
  match path.drop len with
  | [] =>
      -- `path` is the route denoted by the node
      if n.handler.isSome then
        (n, .invalidArgument (.handlerRegistered fullPath))
      else
        ({ n with handler := handler }, .ok)
  | idxc :: rest =>
      let path := idxc :: rest
      if n.hasWildChild then
        match n.children with
        | [] => (n, .fault .outOfRange)
        | front :: others =>
            let child := { front with priority := front.priority + 1 }
            if child.path <+: path ∧ child.type ≠ .catchAll ∧
                (child.path.length = path.length ∨ path[child.path.length]? = some slash) then
              let (child, outcome) := recurse child path
              ({ n with children := child :: others }, outcome)
            else
              ({ n with children := child :: others },
                .invalidArgument (child.wildcardConflict path fullPath))
      else if n.type = .param ∧ idxc = slash ∧ n.children ≠ [] then
        match n.children with
        | [front] =>
            let (child, outcome) := recurse { front with priority := front.priority + 1 } path
            ({ n with children := [child] }, outcome)
        | _ => (n, .fault .assertion)
      else
        match n.indices.idxOf? idxc with
        | some pos =>
            match n.incrementChildPriority pos with
            | .error fault => (n, .fault fault)
            | .ok (n, pos) =>
                match n.children[pos]? with
                | none => (n, .fault .outOfRange)
                | some child =>
                    let (child, outcome) := recurse child path
                    ({ n with children := n.children.set pos child }, outcome)
        | none =>
            if idxc ≠ colon ∧ idxc ≠ star then
              let n := { n with indices := n.indices ++ [idxc],
                                children := n.children ++ [empty] }
              match n.incrementChildPriority (n.indices.length - 1) with
              | .error fault => (n, .fault fault)
              | .ok (n, pos) =>
                  match n.children[pos]? with
                  | none => (n, .fault .outOfRange)
                  | some child =>
                      let (child, outcome) := child.insertPath (path.length + 1) path fullPath
                        unknownWildcard handler
                      ({ n with children := n.children.set pos child }, outcome)
            else
              n.insertPath (path.length + 1) path fullPath unknownWildcard handler

/-- `node::insert_route`. -/
def insertRoute : ℕ → Node H → Bytes → Bytes → Option H → Node H × Outcome
  | 0, n, _, _, _ => (n, .fault .outOfFuel)
  | fuel + 1, n, path, fullPath, handler =>
      let len := longestCommonPrefix path n.path
      let n := if len < n.path.length then n.splitAt len else n
      n.continueRoute (fun child path => insertRoute fuel child path fullPath handler) len path
        fullPath handler

/-- `node::add_route`. -/
def addRoute (n : Node H) (path : Bytes) (handler : Option H) : Node H × Outcome :=
  let n := { n with priority := n.priority + 1 }
  if n.path.isEmpty && n.indices.isEmpty then
    match n.insertPath (path.length + 1) path path unknownWildcard handler with
    | (n, .ok) => ({ n with type := .root }, .ok)
    | (n, outcome) => (n, outcome)
  else
    insertRoute n.height n path path handler

/-- A sequence of `add_route` calls, as long as every one of them succeeds. -/
def addRoutes (n : Node H) : List (Bytes × Option H) → Option (Node H)
  | [] => some n
  | (path, handler) :: calls =>
      match n.addRoute path handler with
      | (n, .ok) => n.addRoutes calls
      | _ => none

end Node

end Eureka.Router
