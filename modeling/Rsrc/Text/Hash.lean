/-!
# Stable hashes of names

The 64-bit FNV-1a hash, which does not depend on platform or run.
-/

namespace Rsrc.Text

def fnvBasis : UInt64 := 0xcbf29ce484222325

def fnvPrime : UInt64 := 0x100000001b3

def fnvStep (hash : UInt64) (byte : UInt8) : UInt64 := (hash ^^^ byte.toUInt64) * fnvPrime

def fnv (bytes : ByteArray) : UInt64 := bytes.foldl fnvStep fnvBasis

/-- The hash of the UTF-8 bytes of a name. -/
def hashName (name : String) : UInt64 := fnv name.toUTF8

end Rsrc.Text
