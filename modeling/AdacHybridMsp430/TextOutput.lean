import AdacHybridMsp430.IntegerOutput

/-!
# Text output

The requests to `System.IO`, in any order.  The functions of the C run-time
print to the standard output on behalf of either file, so that the file that is
selected makes no difference.
-/

namespace AdacHybridMsp430

namespace TextOutput

open IntegerImages IntegerOutput Target

/-- `Current_Out`, and what the two streams of the C run-time have received. -/
structure Console where
  currentOut : FileType
  stdout : List Char
  stderr : List Char

/-- `printf`. -/
def Console.printf (console : Console) (text : List Char) : Console :=
  { console with stdout := console.stdout ++ text }

def putChar (c : Char) (console : Console) : Console :=
  console.printf [c]

def putCharStderr (c : Char) (console : Console) : Console :=
  console.printf [c]

def lf : Char := Char.ofNat 10

/-- `Put` of an `Integer`. -/
def putInteger (x : Integer) (console : Console) : Console :=
  { console with
    stdout := IntegerOutput.put console.currentOut x console.stdout }

/-- `Put` of a `Character`. -/
def putCharacter (c : Char) (console : Console) : Console :=
  match console.currentOut with
  | .stdout => putChar c console
  | .stderr => putCharStderr c console

/-- `Put` of a `String`. -/
def putString (s : List Char) (console : Console) : Console :=
  s.foldl (fun console c => putCharacter c console) console

def newLine : ℕ → Console → Console
  | 0, console => console
  | spacing + 1, console => newLine spacing (putCharacter lf console)

def putLine (s : List Char) (console : Console) : Console :=
  newLine 1 (putString s console)

def standardOutput : FileType := .stdout

def standardError : FileType := .stderr

def setOutput (file : FileType) (console : Console) : Console :=
  { console with currentOut := file }

/-- A call of a procedure of the package. -/
inductive Request
  | setOutput (file : FileType)
  | putInteger (x : Integer)
  | putCharacter (c : Char)
  | putString (s : List Char)
  | putLine (s : List Char)
  | newLine (spacing : ℕ)

def request : Request → Console → Console
  | .setOutput file => setOutput file
  | .putInteger x => putInteger x
  | .putCharacter c => putCharacter c
  | .putString s => putString s
  | .putLine s => putLine s
  | .newLine spacing => newLine spacing

def requests (calls : List Request) (console : Console) : Console :=
  calls.foldl (fun console call => request call console) console

/-- What a request prints. -/
def Request.text : Request → List Char
  | .setOutput _ => []
  | .putInteger x => decimalNumeral (x.toInt.bmod (2 ^ 16))
  | .putCharacter c => [c]
  | .putString s => s
  | .putLine s => s ++ [lf]
  | .newLine spacing => List.replicate spacing lf

/-- The file that is selected after a request. -/
def Request.selects (selected : FileType) : Request → FileType
  | .setOutput file => file
  | _ => selected

section Requests

@[simp]
theorem printf_printf (console : Console) (first second : List Char) :
    (console.printf first).printf second = console.printf (first ++ second) := by
  rw [Console.printf, Console.printf, Console.printf, List.append_assoc]

theorem putCharacter_eq (c : Char) (console : Console) :
    putCharacter c console = console.printf [c] := by
  unfold putCharacter
  cases console.currentOut <;> rfl

theorem putString_eq (s : List Char) (console : Console) :
    putString s console = console.printf s := by
  induction s generalizing console with
  | nil => rw [Console.printf, List.append_nil]; rfl
  | cons c s ih =>
      have rest := ih (putCharacter c console)
      rw [putCharacter_eq, printf_printf] at rest
      rw [← List.singleton_append, ← rest, ← putCharacter_eq]
      rfl

theorem newLine_eq (spacing : ℕ) (console : Console) :
    newLine spacing console = console.printf (List.replicate spacing lf) := by
  induction spacing generalizing console with
  | zero => rw [Console.printf]; simp [newLine]
  | succ spacing ih =>
      rw [newLine, ih, putCharacter_eq, printf_printf]
      rfl

/-- Every request prints its text and selects a file. -/
theorem request_eq (call : Request) (console : Console) :
    request call console =
      { console.printf call.text with
        currentOut := call.selects console.currentOut } := by
  cases call with
  | setOutput file => simp [request, setOutput, Console.printf, Request.text,
      Request.selects]
  | putInteger x => simp [request, putInteger, put_eq, Console.printf, Request.text,
      Request.selects]
  | putCharacter c => exact putCharacter_eq c console
  | putString s => exact putString_eq s console
  | putLine s =>
      change newLine 1 (putString s console) = _
      rw [putString_eq, newLine_eq, printf_printf]
      rfl
  | newLine spacing => exact newLine_eq spacing console

end Requests

/-- The line that a request prints, if it is a call of `Put_Line`. -/
def Request.line : Request → Option (List Char)
  | .putLine s => some s
  | _ => none

/-- A request that prints nothing or a line without line feeds. -/
def Request.PrintsLine (call : Request) : Prop :=
  (∃ file, call = .setOutput file) ∨ ∃ line, call = .putLine line ∧ lf ∉ line

/-- Lines are recovered from the text that ends each of them with a line feed. -/
theorem splitOn_texts {calls : List Request}
    (lines : ∀ call ∈ calls, call.PrintsLine) :
    (calls.flatMap Request.text).splitOn lf = calls.filterMap Request.line ++ [[]] := by
  induction calls with
  | nil => rfl
  | cons call calls ih =>
      have later := ih fun other member => lines other (List.mem_cons_of_mem _ member)
      rw [List.flatMap_cons]
      rcases lines call List.mem_cons_self with ⟨file, rfl⟩ | ⟨line, rfl, single⟩
      · rw [List.filterMap_cons_none rfl]
        exact later
      · have others : ∀ c ∈ line, (c == lf) = false := by
          intro c member
          rw [beq_eq_false_iff_ne]
          rintro rfl
          exact single member
        rw [Request.text, List.append_assoc, List.singleton_append,
          List.splitOn_eq_splitOnP, List.splitOnP_append_cons_of_forall_mem others
            lf (beq_self_eq_true lf), ← List.splitOn_eq_splitOnP, later,
          List.filterMap_cons_some (show Request.line (.putLine line) = some line from rfl),
          List.cons_append]

/-- The streams after some requests. -/
theorem requests_spec (calls : List Request) (before : Console) :
    (requests calls before).stdout = before.stdout ++ calls.flatMap Request.text ∧
      (requests calls before).stderr = before.stderr := by
  induction calls generalizing before with
  | nil => exact ⟨(List.append_nil _).symm, rfl⟩
  | cons call calls ih =>
      obtain ⟨stdout, stderr⟩ := ih (request call before)
      have first := request_eq call before
      constructor
      · rw [List.flatMap_cons, ← List.append_assoc]
        refine stdout.trans ?_
        rw [first]
        rfl
      · refine stderr.trans ?_
        rw [first]
        rfl

/-- Whatever is requested in whichever order, the standard output receives the
texts of the requests in this order, and the other stream nothing.  The lines of
`Put_Line` can be told apart again, on whichever files they were put. -/
theorem console (calls : List Request) (before : Console) :
    (requests calls before).stdout =
        before.stdout ++ calls.flatMap Request.text ∧
      (requests calls before).stderr = before.stderr ∧
      ((∀ call ∈ calls, call.PrintsLine) →
        ((requests calls before).stdout.drop before.stdout.length).splitOn lf =
          calls.filterMap Request.line ++ [[]]) := by
  obtain ⟨stdout, stderr⟩ := requests_spec calls before
  refine ⟨stdout, stderr, fun lines => ?_⟩
  rw [stdout, List.drop_left, splitOn_texts lines]

/-- Two lines, one on each file. -/
theorem console_lines :
    (requests [.putLine ['a'], .setOutput .stderr, .putLine ['b']]
      ⟨.stdout, [], []⟩).stdout.splitOn lf = [['a'], ['b'], []] := by
  refine (console _ ⟨.stdout, [], []⟩).2.2 ?_
  intro call member
  simp only [List.mem_cons, List.not_mem_nil, or_false] at member
  rcases member with rfl | rfl | rfl
  · exact Or.inr ⟨_, rfl, by decide⟩
  · exact Or.inl ⟨_, rfl⟩
  · exact Or.inr ⟨_, rfl, by decide⟩

end TextOutput

end AdacHybridMsp430
