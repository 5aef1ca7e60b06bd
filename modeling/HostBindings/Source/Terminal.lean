import HostBindings.Text

/-!
Terminals of the declaration language: names, literals, reserved and contextual words, and
punctuation.
-/

namespace HostBindings.Source

/-- The kinds of tokens. -/
inductive Terminal
  | name
  | privateName
  | string
  | template
  | number
  | wordImport
  | wordExport
  | wordDefault
  | wordFrom
  | wordAs
  | wordRequire
  | wordNamespace
  | wordModule
  | wordDeclare
  | wordGlobal
  | wordFunction
  | wordVar
  | wordLet
  | wordConst
  | wordType
  | wordInterface
  | wordExtends
  | wordEnum
  | wordClass
  | wordImplements
  | wordPublic
  | wordPrivate
  | wordProtected
  | wordStatic
  | wordReadonly
  | wordAbstract
  | wordOverride
  | wordAccessor
  | wordNew
  | wordKeyof
  | wordUnique
  | wordInfer
  | wordTypeof
  | wordIn
  | wordIs
  | wordAsserts
  | wordGet
  | wordSet
  | ellipsis
  | arrow
  | semicolon
  | comma
  | star
  | openBrace
  | closeBrace
  | equals
  | openParen
  | closeParen
  | colon
  | openBracket
  | closeBracket
  | less
  | greater
  | bar
  | ampersand
  | question
  | bang
  | minus
  | plus
  | dot
deriving DecidableEq, Repr

namespace Terminal

/-- How a word or a mark is written; the other kinds have no spelling of their own. -/
def spelling : Terminal → Text
  | wordImport => "import"
  | wordExport => "export"
  | wordDefault => "default"
  | wordFrom => "from"
  | wordAs => "as"
  | wordRequire => "require"
  | wordNamespace => "namespace"
  | wordModule => "module"
  | wordDeclare => "declare"
  | wordGlobal => "global"
  | wordFunction => "function"
  | wordVar => "var"
  | wordLet => "let"
  | wordConst => "const"
  | wordType => "type"
  | wordInterface => "interface"
  | wordExtends => "extends"
  | wordEnum => "enum"
  | wordClass => "class"
  | wordImplements => "implements"
  | wordPublic => "public"
  | wordPrivate => "private"
  | wordProtected => "protected"
  | wordStatic => "static"
  | wordReadonly => "readonly"
  | wordAbstract => "abstract"
  | wordOverride => "override"
  | wordAccessor => "accessor"
  | wordNew => "new"
  | wordKeyof => "keyof"
  | wordUnique => "unique"
  | wordInfer => "infer"
  | wordTypeof => "typeof"
  | wordIn => "in"
  | wordIs => "is"
  | wordAsserts => "asserts"
  | wordGet => "get"
  | wordSet => "set"
  | ellipsis => "..."
  | arrow => "=>"
  | semicolon => ";"
  | comma => ","
  | star => "*"
  | openBrace => "\x7b"
  | closeBrace => "\x7d"
  | equals => "="
  | openParen => "("
  | closeParen => ")"
  | colon => ":"
  | openBracket => "["
  | closeBracket => "]"
  | less => "<"
  | greater => ">"
  | bar => "|"
  | ampersand => "&"
  | question => "?"
  | bang => "!"
  | minus => "-"
  | plus => "+"
  | dot => "."
  | _ => []

/-- The words that are terminals of their own; any other word is a name. -/
def words : List Terminal :=
  [wordImport, wordExport, wordDefault, wordFrom, wordAs, wordRequire, wordNamespace, wordModule,
   wordDeclare, wordGlobal, wordFunction, wordVar, wordLet, wordConst, wordType, wordInterface,
   wordExtends, wordEnum, wordClass, wordImplements, wordPublic, wordPrivate, wordProtected,
   wordStatic, wordReadonly, wordAbstract, wordOverride, wordAccessor, wordNew, wordKeyof,
   wordUnique, wordInfer, wordTypeof, wordIn, wordIs, wordAsserts, wordGet, wordSet]

/-- Punctuation; a longer mark stands before its beginnings. -/
def marks : List Terminal :=
  [ellipsis, arrow, semicolon, comma, star, openBrace, closeBrace, equals, openParen, closeParen,
   colon, openBracket, closeBracket, less, greater, bar, ampersand, question, bang, minus, plus,
   dot]

/-- The terminal of a word. -/
def ofWord (word : Text) : Terminal := (words.find? fun t => t.spelling = word).getD name

end Terminal

end HostBindings.Source
