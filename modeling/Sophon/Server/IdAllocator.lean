/-
The controller's ID allocator (`server/controller/recorder/db/idmng/allocator.go`).

An allocator hands out the IDs of one resource type from `[min, max]`.  `Refresh`
rebuilds its pool `usableIDs` from the IDs the database has in use (`load()`): every
ID of the range not in use, sorted in the allocator's direction, and, when
`unusedIDFirst` is set, those beyond the last in-use ID first.  `Allocate` takes the
first IDs of the pool, asks the database which of them are in use after all
(`check()`) and hands out the others; `Recycle` puts IDs back at the end of the pool.
`AscIDAllocator` and `descIDAllocator` differ only in their `sorter`.

Sets (`mapset.Set[int]`) are `Finset Int`.  `ToSlice()` lists a set in the order of
the hash map underneath, which Go leaves open: `ToSlice` is any listing of the set,
passed in, and so are the answers of `load()` and `check()`.  A panic is `none`.  IDs
are integers: the loop of `generateAllIDSet` counts from `min` to `max`, which Go's
`i++` would only leave at `max = MaxInt`, where the Go loop never ends.
-/
import Mathlib

namespace Sophon.Server.IdMng

/-- `ToSlice()`: the elements of a set, in an order the caller does not choose. -/
structure ToSlice where
  toSlice : Finset Int → List Int
  listing : ∀ s, (toSlice s : Multiset Int) = s.val

/-- The listing in increasing order, one `ToSlice` among those Go may produce. -/
def ToSlice.ascending : ToSlice := ⟨fun s => s.sort (· ≤ ·), fun s => Finset.sort_eq s _⟩

/-! ### The two sorters -/

/-- `sortSet`, the same for both sorters: the set listed, then sorted. -/
def sortSetWith (sort : List Int → List Int) (ts : ToSlice) (ints : Finset Int) : List Int :=
  sort (ts.toSlice ints)

/-- `generateUsedIDSet`, the same for both sorters but for the comparison: the last
in-use ID in the sorter's order, then the usable IDs before it, walking the sorted
usable IDs until the first that is not.  With no ID in use, Go indexes the sorted
set at `-1` and panics; here the index is `0` of an empty list, with the same
`none`. -/
def generateUsedIDSetWith (sortSet : Finset Int → List Int) (before : Int → Int → Bool)
    (sortedUsableIDs : List Int) (inUseIDSet : Finset Int) : Option (Finset Int) :=
  (sortSet inUseIDSet)[inUseIDSet.card - 1]?.map fun lastInUseID =>
    (sortedUsableIDs.takeWhile fun id => before id lastInUseID).toFinset

/-- `AscIDAllocator.sort`: `sort.Ints`. -/
def AscIDAllocator.sort (ints : List Int) : List Int := ints.mergeSort (· ≤ ·)

def AscIDAllocator.sortSet (ts : ToSlice) (ints : Finset Int) : List Int :=
  sortSetWith AscIDAllocator.sort ts ints

/-- `AscIDAllocator.generateUsedIDSet`: the usable IDs below the largest in-use ID. -/
def AscIDAllocator.generateUsedIDSet (ts : ToSlice) (sortedUsableIDs : List Int)
    (inUseIDSet : Finset Int) : Option (Finset Int) :=
  generateUsedIDSetWith (AscIDAllocator.sortSet ts) (· < ·) sortedUsableIDs inUseIDSet

/-- `descIDAllocator.sort`: `sort.Ints`, then `sort.Sort(sort.Reverse(...))`. -/
def descIDAllocator.sort (ints : List Int) : List Int :=
  (ints.mergeSort (· ≤ ·)).mergeSort (· ≥ ·)

def descIDAllocator.sortSet (ts : ToSlice) (ints : Finset Int) : List Int :=
  sortSetWith descIDAllocator.sort ts ints

/-- `descIDAllocator.generateUsedIDSet`: the usable IDs above the smallest in-use ID,
the last of the descending sort. -/
def descIDAllocator.generateUsedIDSet (ts : ToSlice) (sortedUsableIDs : List Int)
    (inUseIDSet : Finset Int) : Option (Finset Int) :=
  generateUsedIDSetWith (descIDAllocator.sortSet ts) (· > ·) sortedUsableIDs inUseIDSet

/-- The `sorter` an allocator is built with. -/
inductive Sorter
  | asc
  | desc
  deriving DecidableEq, Repr

namespace Sorter

def sort : Sorter → List Int → List Int
  | .asc => AscIDAllocator.sort
  | .desc => descIDAllocator.sort

def sortSet (ts : ToSlice) : Sorter → Finset Int → List Int
  | .asc => AscIDAllocator.sortSet ts
  | .desc => descIDAllocator.sortSet ts

def generateUsedIDSet (ts : ToSlice) : Sorter → List Int → Finset Int → Option (Finset Int)
  | .asc => AscIDAllocator.generateUsedIDSet ts
  | .desc => descIDAllocator.generateUsedIDSet ts

end Sorter

/-! ### The allocator -/

/-- `allocator`, with the `sorter` it is built with; `org` only feeds the logs. -/
structure Allocator where
  resourceType : String
  min : Int
  max : Int
  usableIDs : List Int
  sorter : Sorter
  unusedIDFirst : Bool
  allocationCountStrict : Bool

/-- `newIDAllocator`, with the sorter that `SetSorter` installs right after. -/
def newIDAllocator (resourceType : String) (min max : Int) (sorter : Sorter) : Allocator :=
  { resourceType, min, max, usableIDs := [], sorter, unusedIDFirst := true,
    allocationCountStrict := false }

def newAscIDAllocator (resourceType : String) (min max : Int) : Allocator :=
  newIDAllocator resourceType min max .asc

def newDescIDAllocator (resourceType : String) (min max : Int) : Allocator :=
  newIDAllocator resourceType min max .desc

/-- The errors of `Allocate`, with what their messages print. -/
inductive AllocateError
  /-- `"%s has no more usable ids, usable ids count: 0"` -/
  | noUsableIDs (resourceType : String)
  /-- `"%s has no more usable ids, usable ids count: %d, except ids count: %d"` -/
  | notEnoughUsableIDs (resourceType : String) (usable expected : Int)
  /-- `"%s ids: %v are in use"` -/
  | idsInUse (resourceType : String) (ids : List Int)
  /-- The error of `check()`, returned as it is. -/
  | check (err : String)
  deriving DecidableEq, Repr

namespace Allocator

/-- `generateAllIDSet`: `for i := a.min; i <= a.max; i++ { allIDSet.Add(i) }`. -/
def generateAllIDSet (a : Allocator) : Finset Int :=
  ((List.range (a.max + 1 - a.min).toNat).map fun (i : Nat) => a.min + i).toFinset

def generateSortedUsableIDs (ts : ToSlice) (a : Allocator) (allIDSet inUseIDSet : Finset Int) :
    Option (List Int) :=
  if inUseIDSet.card = 0 then some (a.sorter.sortSet ts allIDSet)
  else
    let usableIDSet := allIDSet \ inUseIDSet
    let usableIDs := a.sorter.sortSet ts usableIDSet
    if a.unusedIDFirst then
      -- the recycled IDs last, the ones never used first
      (a.sorter.generateUsedIDSet ts usableIDs inUseIDSet).map fun usedIDSet =>
        let usedIDs := a.sorter.sortSet ts usedIDSet
        let unusedIDs := a.sorter.sortSet ts (usableIDSet \ usedIDSet)
        unusedIDs ++ usedIDs
    else some usableIDs

/-- `Refresh`, given what `load()` returned; on its error the allocator is unchanged. -/
def refresh (ts : ToSlice) (a : Allocator) : Except String (Finset Int) → Option (Except String Allocator)
  | .error err => some (.error err)
  | .ok inUseIDSet =>
    (a.generateSortedUsableIDs ts a.generateAllIDSet inUseIDSet).map fun usableIDs =>
      .ok { a with usableIDs }

/-- `Allocate` from `ids := make([]int, trueCount)` on, which panics for a negative
count. -/
def allocateFirst (ts : ToSlice) (a : Allocator) (trueCount : Int)
    (check : List Int → Except String (List Int)) :
    Option ((List Int × Option AllocateError) × Allocator) :=
  if trueCount < 0 then none
  else
    let ids := a.usableIDs.take trueCount.toNat
    match check ids with
    | .error err => some ((ids, some (.check err)), a)
    | .ok inUseIDs =>
      if inUseIDs.length ≠ 0 then
        if a.allocationCountStrict then some (([], some (.idsInUse a.resourceType inUseIDs)), a)
        else
          some ((ts.toSlice (ids.toFinset \ inUseIDs.toFinset), none),
            { a with usableIDs := a.usableIDs.drop trueCount.toNat })
      else some ((ids, none), { a with usableIDs := a.usableIDs.drop trueCount.toNat })

/-- `Allocate(count)`, given how `check()` answers: the IDs and the error it returns,
and the allocator afterwards. -/
def allocate (ts : ToSlice) (a : Allocator) (count : Int)
    (check : List Int → Except String (List Int)) :
    Option ((List Int × Option AllocateError) × Allocator) :=
  if a.usableIDs.length = 0 then some (([], some (.noUsableIDs a.resourceType)), a)
  else if (a.usableIDs.length : Int) < count then
    if a.allocationCountStrict then
      some (([], some (.notEnoughUsableIDs a.resourceType a.usableIDs.length count)), a)
    else a.allocateFirst ts a.usableIDs.length check
  else a.allocateFirst ts count check

/-- `Recycle(ids)`: the IDs sorted, at the end of the pool. -/
def recycle (a : Allocator) (ids : List Int) : Allocator :=
  { a with usableIDs := a.usableIDs ++ a.sorter.sort ids }

end Allocator

end Sophon.Server.IdMng
