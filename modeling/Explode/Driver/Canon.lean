import Explode.Driver.Marshal

/-!
# The canonical form of a file system

The objects are numbered in the order in which a depth-first walk over the
sorted names first meets them, and are marshalled in that order with the new
numbers in the place of the ids.
-/

namespace Explode.Driver

/-- The state of `visit_order`. The flag says that one of its assertions failed. -/
structure VisitOrder where
  order : IdMap
  cur : Nat
  failed : Bool

def VisitOrder.add (pre : Bool) (s : VisitOrder) (obj : Obj) : VisitOrder :=
  match s.order.get? obj.id with
  | none => { s with failed := true }
  | some (some _) => s
  | some none =>
    if obj.id = 0 ∧ pre ∧ s.cur ≠ 0 then { s with failed := true }
    else { s with order := s.order.insert obj.id (some s.cur), cur := s.cur + 1 }

def visitOrder (pre : Bool) : Visitor VisitOrder where
  wantDangling := false
  preVisit _ _ obj s :=
    match obj with
    | none => (.cont, s)
    | some o => (.cont, if pre then s.add pre o else s)
  postVisit _ _ obj s :=
    match obj with
    | none => (.cont, s)
    | some o => (.cont, if pre then s else s.add pre o)

def placeIds : List (Nat × Option Nat) → List (Option Nat) → FsResult (List (Option Nat))
  | [], order => .ok order
  | (_, none) :: rest, order => placeIds rest order
  | (id, some k) :: rest, order =>
    if order[k]? = some none then placeIds rest (order.set k (some id)) else .error .badOrder

def maxOrder (idMap : IdMap) : Nat := (idMap.entries.filterMap Prod.snd).foldl max 0

def idMapToOrder (idMap : IdMap) : FsResult (List Nat) := do
  let order ← placeIds idMap.entries (List.replicate idMap.size none)
  let max := maxOrder idMap
  if (order.take (max + 1)).all Option.isSome ∧ max < order.length ∧
      (order.drop (max + 1)).all Option.isNone then
    .ok ((order.take (max + 1)).filterMap id)
  else .error .badOrder

namespace AbstFS

def dfsOrder (fs : AbstFS) (pre : Bool) : FsResult IdMap := do
  let invalid : IdMap := fs.objs.entries.foldl (fun m e => m.insert e.1 none) .empty
  let r ← fs.dfs (visitOrder pre) ⟨invalid, 0, false⟩
  if r.2.failed then .error .badOrder else .ok r.2.order

def canonObjs (fs : AbstFS) (purpose : MarshalPurpose) (idMap : IdMap) :
    List Nat → FsResult Bytes
  | [] => .ok []
  | id :: rest =>
    match fs.objs.get? id with
    | none => .error .badOrder
    | some o => do
      let bytes ← marshalObjHelper purpose idMap o
      let more ← fs.canonObjs purpose idMap rest
      .ok (bytes ++ more)

def canonHelper (fs : AbstFS) (purpose : MarshalPurpose) : FsResult Bytes := do
  fs.internalCheck
  let idMap ← fs.dfsOrder true
  let order ← idMapToOrder idMap
  fs.canonObjs purpose idMap order

def canonObjects (fs : AbstFS) : FsResult Bytes := fs.canonHelper .canonObj

def canonMetadata (fs : AbstFS) : FsResult Bytes := fs.canonHelper .canonMetadata

end AbstFS

end Explode.Driver
