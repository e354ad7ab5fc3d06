import Prismalama.Mlxrunner.KVCache
import Prismalama.Mlxrunner.RotatingKVCache
import Prismalama.Mlxrunner.RecurrentCache

/-!
# The caches of a model (`x/mlxrunner/cache/cache.go`)

What the caches of the layers have in common, whatever their kind. A snapshot belongs to
the cache that took it, which knows it by its number.
-/

namespace Prismalama.Mlxrunner

inductive Cache (α : Type*)
  | kv (c : KVCache α)
  | rotating (c : RotatingKVCache α)
  | recurrent (c : RecurrentCache α)

namespace Cache

variable {α : Type*}

/-- `Offset` -/
def offset : Cache α → Nat
  | kv c => c.offset
  | rotating c => c.offset
  | recurrent c => c.offset

/-- The layer's part of a forward pass over these rows. -/
def update [Inhabited α] (c : Cache α) (rows : List α) : Cache α :=
  match c with
  | kv c => kv (c.update rows).1
  | rotating c => rotating (c.update rows).1
  | recurrent c => recurrent (c.update rows)

/-- `PrepareSnapshots`; `none` when it panics. -/
def prepareSnapshots (c : Cache α) (offsets : List Nat) : Option (Cache α) :=
  match c with
  | kv c => (c.prepareSnapshots offsets).map kv
  | rotating c => (c.prepareSnapshots offsets).map rotating
  | recurrent c => (c.prepareSnapshots offsets).map recurrent

/-- `TakeSnapshots` -/
def takeSnapshots : Cache α → Cache α × List (Option Nat)
  | kv c => (kv c.takeSnapshots.1, c.takeSnapshots.2)
  | rotating c => (rotating c.takeSnapshots.1, c.takeSnapshots.2)
  | recurrent c => (recurrent c.takeSnapshots.1, c.takeSnapshots.2)

/-- `Restore` -/
def restore [Inhabited α] (c : Cache α) (snapshot : Option Nat) (target : Int) :
    Cache α × Bool :=
  match c with
  | kv c => (kv (c.restore snapshot target).1, (c.restore snapshot target).2)
  | rotating c => (rotating (c.restore snapshot target).1, (c.restore snapshot target).2)
  | recurrent c => (recurrent (c.restore snapshot target).1, (c.restore snapshot target).2)

/-- `Close` of a snapshot. -/
def close (c : Cache α) (id : Nat) : Cache α :=
  match c with
  | kv c => kv (c.close id)
  | rotating c => rotating (c.close id)
  | recurrent c => recurrent (c.close id)

end Cache

end Prismalama.Mlxrunner
