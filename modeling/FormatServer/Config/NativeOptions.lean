import FormatServer.Text.Bytes

namespace FormatServer

/-- How a line ends. -/
inductive EndOfLine where
  | lf
  | crlf
  | cr
  deriving DecidableEq, Repr

/-- When the names of properties are quoted. -/
inductive QuoteProps where
  | asNeeded
  | consistent
  | preserve
  deriving DecidableEq, Repr

/-- Where a comma follows the last element. -/
inductive TrailingComma where
  | all
  | es5
  | none
  deriving DecidableEq, Repr

/-- When a single parameter of an arrow function stands in parentheses. -/
inductive ArrowParens where
  | always
  | avoid
  deriving DecidableEq, Repr

/-- How a line end is spelled in a configuration. -/
def EndOfLine.spelling : EndOfLine → Bytes
  | lf => "lf"
  | crlf => "crlf"
  | cr => "cr"

/-- How a quoting rule is spelled in a configuration. -/
def QuoteProps.spelling : QuoteProps → Bytes
  | asNeeded => "as-needed"
  | consistent => "consistent"
  | preserve => "preserve"

/-- How a comma rule is spelled in a configuration. -/
def TrailingComma.spelling : TrailingComma → Bytes
  | all => "all"
  | es5 => "es5"
  | none => "none"

/-- How a parenthesis rule is spelled in a configuration. -/
def ArrowParens.spelling : ArrowParens → Bytes
  | always => "always"
  | avoid => "avoid"

/-- The line end with a spelling. -/
def EndOfLine.ofSpelling? (text : Bytes) : Option EndOfLine :=
  [lf, crlf, cr].find? (·.spelling = text)

/-- The quoting rule with a spelling. -/
def QuoteProps.ofSpelling? (text : Bytes) : Option QuoteProps :=
  [asNeeded, consistent, preserve].find? (·.spelling = text)

/-- The comma rule with a spelling. -/
def TrailingComma.ofSpelling? (text : Bytes) : Option TrailingComma :=
  [all, es5, none].find? (·.spelling = text)

/-- The parenthesis rule with a spelling. -/
def ArrowParens.ofSpelling? (text : Bytes) : Option ArrowParens :=
  [always, avoid].find? (·.spelling = text)

theorem EndOfLine.spelling_of_ofSpelling? {text : Bytes} {choice : EndOfLine}
    (found : ofSpelling? text = some choice) : choice.spelling = text := by
  simpa using List.find?_some found

theorem QuoteProps.spelling_of_ofSpelling? {text : Bytes} {choice : QuoteProps}
    (found : ofSpelling? text = some choice) : choice.spelling = text := by
  simpa using List.find?_some found

theorem TrailingComma.spelling_of_ofSpelling? {text : Bytes} {choice : TrailingComma}
    (found : ofSpelling? text = some choice) : choice.spelling = text := by
  simpa using List.find?_some found

theorem ArrowParens.spelling_of_ofSpelling? {text : Bytes} {choice : ArrowParens}
    (found : ofSpelling? text = some choice) : choice.spelling = text := by
  simpa using List.find?_some found

theorem EndOfLine.ofSpelling?_spelling (choice : EndOfLine) :
    ofSpelling? choice.spelling = some choice := by
  cases choice <;> rfl

theorem QuoteProps.ofSpelling?_spelling (choice : QuoteProps) :
    ofSpelling? choice.spelling = some choice := by
  cases choice <;> rfl

theorem TrailingComma.ofSpelling?_spelling (choice : TrailingComma) :
    ofSpelling? choice.spelling = some choice := by
  cases choice <;> rfl

theorem ArrowParens.ofSpelling?_spelling (choice : ArrowParens) :
    ofSpelling? choice.spelling = some choice := by
  cases choice <;> rfl

/-- The options of the native engine. -/
structure NativeOptions where
  useTabs : Bool := false
  tabWidth : Int32 := 2
  printWidth : Int32 := 100
  endOfLine : EndOfLine := .lf
  semi : Bool := true
  singleQuote : Bool := false
  jsxSingleQuote : Bool := false
  quoteProps : QuoteProps := .asNeeded
  trailingComma : TrailingComma := .all
  bracketSpacing : Bool := true
  bracketSameLine : Bool := false
  arrowParens : ArrowParens := .always
  deriving DecidableEq, Repr

end FormatServer
