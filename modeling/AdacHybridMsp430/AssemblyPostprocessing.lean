import AdacHybridMsp430.ListReplacement
import AdacHybridMsp430.PathNames

/-!
# Post-processing of assembly texts

What `postprocessAsm` does to the text of an assembly file: the stream editor
renames the main procedure, the lines that define body elaboration procedures
are collected, and an `.init_array` section is appended for each of them.
-/

namespace AdacHybridMsp430

namespace Assembly

open ListReplacement

def adaMainSymbol : Text := "_ada_main".toList
def mainSymbol : Text := "main".toList

/-- The effect of `sed -i 's/_ada_main/main/g'` on the text of a file. -/
def renameAdaMain (text : Text) : Text :=
  replaceAll adaMainSymbol mainSymbol text

/-- Newline translation of a file that Python opens in text mode. -/
def universalNewlines : Text → Text
  | [] => []
  | '\r' :: '\n' :: rest => '\n' :: universalNewlines rest
  | character :: rest =>
      (if character = '\r' then '\n' else character) :: universalNewlines rest

/-- The lines of a text, each with its newline. -/
def readlines : Text → List Text
  | [] => []
  | character :: rest =>
      if character = '\n' then
        ['\n'] :: readlines rest
      else
        match readlines rest with
        | [] => [[character]]
        | line :: lines => (character :: line) :: lines

/-- The text that marks a line as the definition of a constructor. -/
def elaborationMark : Text := "___elabb:".toList

/-- `line[:line.find(":")]`.  Without a colon `find` returns -1, and the slice
drops the last character. -/
def beforeColon (line : Text) : Text :=
  if ':' ∈ line then line.takeWhile (· != ':') else line.dropLast

/-- `findContructorNames` on the text of the file. -/
def contructorNames (text : Text) : List Text :=
  ((readlines (universalNewlines text)).filter
    fun line => elaborationMark <:+: line).map beforeColon

def initArrayLine : Text := "\t.section\t.init_array,\"aw\"".toList
def alignmentLine : Text := "\t.balign 2".toList
def shortDirective : Text := "\t.short\t".toList

/-- The lines that `appendConstructorSections` writes for one constructor. -/
def constructorLines (constructor : Text) : List Text :=
  [initArrayLine, alignmentLine, shortDirective ++ constructor]

def constructorSection (constructor : Text) : Text :=
  (constructorLines constructor).flatMap (· ++ ['\n'])

/-- The text that `appendConstructorSections` adds to the file. -/
def constructorSections (constructors : List Text) : Text :=
  constructors.flatMap constructorSection

/-- The text after the stream editor, which runs unless `_ada_main` is kept. -/
def renamedText (keepAdaMain : Bool) (text : Text) : Text :=
  if keepAdaMain then text else renameAdaMain text

/-- The text that `postprocessAsm` leaves in the file. -/
def postprocessedText (keepAdaMain : Bool) (text : Text) : Text :=
  let renamed := renamedText keepAdaMain text
  renamed ++ constructorSections (contructorNames renamed)

example : postprocessedText false "_ada_main:\np___elabb:\n".toList =
    ("main:\np___elabb:\n\t.section\t.init_array,\"aw\"\n" ++
      "\t.balign 2\n\t.short\tp___elabb\n").toList := by decide +kernel

end Assembly

end AdacHybridMsp430
