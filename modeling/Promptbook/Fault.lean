import Promptbook.Calendar.Basic
import Promptbook.Text.Quoted
import Promptbook.Text.Utf8

namespace Promptbook

inductive FileFault
  | missing
  | isDirectory
  | notDirectory
  | nameTooLong
  deriving DecidableEq, Repr

namespace FileFault

def code : FileFault → Nat
  | missing => 2
  | isDirectory => 21
  | notDirectory => 20
  | nameTooLong => 36

def message : FileFault → String
  | missing => "No such file or directory"
  | isDirectory => "Is a directory"
  | notDirectory => "Not a directory"
  | nameTooLong => "File name too long"

def className : FileFault → String
  | missing => "FileNotFoundError"
  | isDirectory => "IsADirectoryError"
  | notDirectory => "NotADirectoryError"
  | nameTooLong => "OSError"

end FileFault

/-- A cause of failure. Type names are those that messages show. -/
inductive Fault
  | tooDeep
  | refused (message : String)
  | tooManyDigits (count : Option Nat)
  | circular
  | badObjectKey (type : String)
  | unhashable (type : String)
  | notIterable (type : String)
  | textWanted (type : String)
  | itemNotText (index : Nat) (type : String)
  | textPattern
  | notSearchable (type : String)
  | noAttribute (type name : String)
  | notOrdered (symbol left right : String)
  | entryNotSequence (index : Nat)
  | entryLength (index length : Nat)
  | notCategory (quoted : String)
  | keywordNotText
  | noAssignment (type : String)
  | listIndex (type : String)
  | bytesWanted
  | sizeChanged
  | notMapping (type : String)
  | arguments (message : String)
  | calendar (cause : CalendarFault)
  | badInteger (base : Nat) (text : String)
  | badReal (text : String)
  | indexRange
  | codePointRange
  | codePointSize
  | noKey (quoted : String)
  | decoding (cause : Text.Utf8Fault)
  | file (cause : FileFault) (path : String)
  | nullInPath
  | noHome
  | missingError
  | invalid (message : String)
  deriving DecidableEq, Repr

namespace Fault

/-- The greatest number of digits with which integers are read or written. -/
def digitLimit : Nat := 4300

def shownLimit : Nat := 200

def message : Fault → String
  | tooDeep => "maximum recursion depth exceeded"
  | refused m => m
  | tooManyDigits count =>
    s!"Exceeds the limit ({digitLimit} digits) for integer string conversion" ++
      ((count.map fun n => s!": value has {n} digits").getD "") ++
      "; use sys.set_int_max_str_digits() to increase the limit"
  | circular => "Circular reference detected"
  | badObjectKey t => s!"keys must be str, int, float, bool or None, not {t}"
  | unhashable t => s!"unhashable type: '{t}'"
  | notIterable t => s!"'{t}' object is not iterable"
  | itemNotText i t => s!"sequence item {i}: expected str instance, {t} found"
  | textWanted t => s!"expected string or bytes-like object, got '{t}'"
  | textPattern => "cannot use a string pattern on a bytes-like object"
  | notSearchable t => s!"argument of type '{t}' is not iterable"
  | noAttribute t a => s!"'{t}' object has no attribute '{a}'"
  | notOrdered symbol l r => s!"'{symbol}' not supported between instances of '{l}' and '{r}'"
  | entryNotSequence i =>
    s!"cannot convert dictionary update sequence element #{i} to a sequence"
  | entryLength i n =>
    s!"dictionary update sequence element #{i} has length {n}; 2 is required"
  | notCategory q => s!"{q} is not a valid PromptCategory"
  | keywordNotText => "keywords must be strings"
  | noAssignment t => s!"'{t}' object does not support item assignment"
  | listIndex t => s!"list indices must be integers or slices, not {t}"
  | bytesWanted => "a bytes-like object is required, not 'str'"
  | sizeChanged => "dictionary changed size during iteration"
  | notMapping t => s!"'{t}' object is not a mapping"
  | arguments m => m
  | calendar c => c.message
  | badInteger base t =>
    s!"invalid literal for int() with base {base}: " ++
      String.ofList ((Text.quoteChars t.toList).take shownLimit)
  | badReal t => s!"could not convert string to float: {Text.quote t}"
  | indexRange => "string index out of range"
  | codePointRange => "chr() arg not in range(0x110000)"
  | codePointSize => "Python int too large to convert to C int"
  | noKey q => q
  | decoding c => c.message
  | file c p => s!"[Errno {c.code}] {c.message}: {Text.quote p}"
  | nullInPath => "embedded null byte"
  | noHome => "Could not determine home directory."
  | missingError => "Guarded operation failed without a captured error"
  | invalid m => m

def className : Fault → String
  | tooDeep => "RecursionError"
  | refused _ | noHome | missingError | sizeChanged => "RuntimeError"
  | tooManyDigits _ | circular | entryLength .. | notCategory _ | calendar _ | badInteger ..
  | badReal _ | nullInPath | codePointRange | invalid _ => "ValueError"
  | badObjectKey _ | unhashable _ | notIterable _ | textWanted _ | textPattern | notSearchable _
  | notOrdered .. | entryNotSequence _ | keywordNotText | noAssignment _ | listIndex _
  | itemNotText .. | bytesWanted | notMapping _ | arguments _ => "TypeError"
  | noAttribute .. => "AttributeError"
  | indexRange => "IndexError"
  | codePointSize => "OverflowError"
  | noKey _ => "KeyError"
  | decoding _ => "UnicodeDecodeError"
  | file c _ => c.className

end Fault

end Promptbook
