import ApiSurface.Sha256
import ApiSurface.Source.Outcome

namespace ApiSurface

structure SourceFile where
  /-- The path as records and diagnostics give it. -/
  path : String
  text : String
  deriving DecidableEq, Repr

namespace Corpus

def parse (sources : List SourceFile) : Outcome :=
  sources.foldr (fun source rest => parseSource source.path source.text.toList ++ rest) .empty

def utf8 (s : String) : List UInt8 := s.toUTF8.data.toList

/-- The bytes that the digest is taken of: each path and each text with a zero byte after it. -/
def digestInput (sources : List SourceFile) : List UInt8 :=
  sources.flatMap fun source => utf8 source.path ++ 0 :: utf8 source.text ++ [0]

/-- The SHA-256 of all paths and texts, in hexadecimal digits. -/
def digest (sources : List SourceFile) : String :=
  String.ofList (Sha256.hex (Sha256.digest (digestInput sources)))

end Corpus

end ApiSurface
