import FerroDb.Cluster.Digest

/-!
# Stored rows

The version header every stored row starts with, after `storage/tuple.rs`.
-/

namespace FerroDb.Storage

open Cluster (ofBeBytes)

def versionHeaderSize : ℕ := 24

structure VersionHeader where
  beginTs : ℕ
  endTs : ℕ
  prevPage : ℕ
  prevSlot : ℕ
deriving DecidableEq

def versionHeader (data : List UInt8) : Except FerroError VersionHeader :=
  if data.length < versionHeaderSize then .error (.io "tuple size < version header size")
  else .ok {
    beginTs := ofBeBytes (data.take 8)
    endTs := ofBeBytes ((data.drop 8).take 8)
    prevPage := ofBeBytes ((data.drop 16).take 4)
    prevSlot := ofBeBytes ((data.drop 20).take 2) }

end FerroDb.Storage
