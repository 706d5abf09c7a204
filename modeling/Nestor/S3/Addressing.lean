import Mathlib.Data.List.Infix
import Nestor.S3.Sigv4

/-!
# Bucket and key of a request

`addressing.rs`. The bucket is the first segment of the path or, virtual hosted, the label before
the domain.
-/

namespace Nestor.S3

open Lib

inductive Addressing where
  | path
  | virtualHosted (domain : Bytes)
deriving DecidableEq

structure Target where
  bucket : Option Bytes
  key : Option Bytes
deriving DecidableEq

def nonEmpty (s : Bytes) : Option Bytes := if s = [] then none else some s

def isBucketByte (b : UInt8) : Bool := isLower b || isDigit b || b = 45 || b = 46

def isAlphanumeric (b : UInt8) : Bool := isDigit b || isLower b || isUpper b

/-- The names `validated_bucket` accepts. -/
def wellFormedBucket (name : Bytes) : Bool :=
  3 ≤ name.length && name.length ≤ 63 && name.all isBucketByte && name.head?.any isAlphanumeric &&
    name.getLast?.any isAlphanumeric && !decide (ascii ".." <:+: name)

def validatedBucket (name : Bytes) : Except S3Error Bytes :=
  if wellFormedBucket name then .ok name else .error (.invalidBucketName name)

/-- The host without its port. -/
def hostname (host : Bytes) : Bytes := (host.splitOn colon).headD host

/-- The label before the domain. -/
def hostBucket (domain host : Bytes) : Option Bytes := do
  let bucket ← (hostname host).dropSuffix? domain
  let bucket ← bucket.dropSuffix? (ascii ".")
  nonEmpty bucket

/-- The path without its first slash. -/
def strippedPath (rawPath : Bytes) : Bytes := (rawPath.dropPrefix? [slash]).getD rawPath

def resolvePath (path : Bytes) : Except S3Error Target := do
  let (bucket, key) := match splitOnce slash path with
    | some (bucket, key) => (bucket, nonEmpty key)
    | none => (path, none)
  let bucket ← (nonEmpty bucket).mapM validatedBucket
  pure ⟨bucket, key.map percentDecode⟩

namespace Addressing

/-- The bucket a host stands for under an addressing. -/
def bucketOf : Addressing → Bytes → Option Bytes
  | path, _ => none
  | virtualHosted domain, host => hostBucket domain host

def resolve (addressing : Addressing) (host rawPath : Bytes) : Except S3Error Target :=
  match addressing.bucketOf host with
  | some bucket => do
      let bucket ← validatedBucket bucket
      pure ⟨some bucket, (nonEmpty (strippedPath rawPath)).map percentDecode⟩
  | none => resolvePath (strippedPath rawPath)

end Addressing

end Nestor.S3
