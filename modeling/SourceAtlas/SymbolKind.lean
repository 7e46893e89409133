/-!
# Kinds of symbols

A language server reports the kind of a symbol as a number. The numbers 1 to 26
have names; every other number that fits in a byte is kept as it is, so reading
a number and writing the kind back gives the number again.

`SymbolKind.named` lists the named kinds in the order of their numbers, and
both directions are read off that one list.
-/

namespace SourceAtlas

inductive SymbolKind where
  | file | moduleScope | namespaceScope | packageScope | classType | method
  | property | field | constructor | enumType | interfaceType | function
  | variableDecl | constantDecl | string | number | boolean | array | object
  | key | null | enumMember | structType | event | operator | typeParameter
  | unknown (code : UInt8)
  deriving DecidableEq, Inhabited, Repr

namespace SymbolKind

/-- The kinds with a name. The first of them has number one. -/
def named : List SymbolKind :=
  [.file, .moduleScope, .namespaceScope, .packageScope, .classType, .method,
    .property, .field, .constructor, .enumType, .interfaceType, .function,
    .variableDecl, .constantDecl, .string, .number, .boolean, .array, .object,
    .key, .null, .enumMember, .structType, .event, .operator, .typeParameter]

def ofCode (code : UInt8) : SymbolKind :=
  if code = 0 then .unknown code
  else (named[code.toNat - 1]?).getD (.unknown code)

def code : SymbolKind → UInt8
  | .unknown code => code
  | kind => UInt8.ofNat (named.idxOf kind + 1)

/-- A kind is canonical when it is the kind of its own number: a number with a
name is never kept as an unknown one. -/
def Canonical (kind : SymbolKind) : Prop :=
  ∀ code, kind = .unknown code → ¬ (1 ≤ code ∧ code ≤ 26)

def label : SymbolKind → String
  | .file => "File"
  | .moduleScope => "Module"
  | .namespaceScope => "Namespace"
  | .packageScope => "Package"
  | .classType => "Class"
  | .method => "Method"
  | .property => "Property"
  | .field => "Field"
  | .constructor => "Constructor"
  | .enumType => "Enum"
  | .interfaceType => "Interface"
  | .function => "Function"
  | .variableDecl => "Variable"
  | .constantDecl => "Constant"
  | .string => "String"
  | .number => "Number"
  | .boolean => "Boolean"
  | .array => "Array"
  | .object => "Object"
  | .key => "Key"
  | .null => "Null"
  | .enumMember => "Enum Member"
  | .structType => "Struct"
  | .event => "Event"
  | .operator => "Operator"
  | .typeParameter => "Type Parameter"
  | .unknown code => s!"Symbol({code})"

/-- Symbols that stand for a name space. Asking where such a symbol is used
gives every use of the name, so they are never asked about. -/
def isNamespace : SymbolKind → Bool
  | .namespaceScope | .moduleScope | .packageScope => true
  | _ => false

end SymbolKind

end SourceAtlas
