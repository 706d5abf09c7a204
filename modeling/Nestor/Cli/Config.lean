import Nestor.Core.Namespace

/-!
# The configuration of buckets

The `[buckets]` section of `config.rs` and the namespace configuration made from it. The windows are
taken over as they are. `populate_max` is read elsewhere and left out.
-/

namespace Nestor.Cli

open Lib

/-- The section as it is deserialised: the block size is the number of bytes written there. -/
structure Buckets where
  blockSize : Nat
  fetchWindow : Nat
  readWindow : Nat
  consistency : Consistency
  readahead : Nat
  fetch : FetchPolicy

def Buckets.default : Buckets where
  blockSize := NamespaceConfig.default.blockSize.bytes
  fetchWindow := NamespaceConfig.default.fetchWindow
  readWindow := NamespaceConfig.default.readWindow
  consistency := NamespaceConfig.default.consistency
  readahead := NamespaceConfig.default.readahead
  fetch := NamespaceConfig.default.fetch

/-- `u32::try_from`. -/
def u32TryFrom (n : Nat) : Option Nat := if n ≤ maxU32 then some n else none

def Buckets.namespace (b : Buckets) : Except String NamespaceConfig :=
  match (u32TryFrom b.blockSize).bind BlockSize.new with
  | none =>
      .error s!"buckets.block_size must be a power of two between {minBlockSize} and {maxBlockSize} bytes"
  | some blockSize =>
      .ok {
        blockSize := blockSize
        fetchWindow := b.fetchWindow
        readWindow := b.readWindow
        consistency := b.consistency
        readahead := b.readahead
        fetch := b.fetch }

theorem Buckets.namespace_eq_ok {b : Buckets} {config : NamespaceConfig} (h : b.namespace = .ok config) :
    config.fetchWindow = b.fetchWindow ∧ config.readWindow = b.readWindow ∧
    config.consistency = b.consistency := by
  unfold Buckets.namespace at h
  split at h
  · cases h
  · cases h
    exact ⟨rfl, rfl, rfl⟩

end Nestor.Cli
