import SeekParse.Text.Utf8

/-!
# Quoting bytes on one line

A diagnostic takes one line, so bytes that it quotes must not break it. Line feeds are written as
the two characters `\` and `n`; nothing else is escaped, not even `\` itself, because the excerpt is
for reading and never read back.
-/

namespace SeekParse

/-- The byte that ends a line. -/
def lineFeed : UInt8 := 0x0A

/-- A character as it is written in an excerpt. -/
def escapeLineFeed (c : Char) : List Char :=
  if c = '\n' then ['\\', 'n'] else [c]

/-- Bytes as text that takes one line: decoded with replacement, then line feeds escaped. -/
def oneLine (bytes : List UInt8) : String :=
  String.ofList ((Utf8.decodeLossy bytes).flatMap escapeLineFeed)

end SeekParse
