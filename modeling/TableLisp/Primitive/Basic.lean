/-!
The primitive functions: what each is called, what it is for, and how many arguments it takes when
that number is fixed. What they do is in the modules beside this one, a family in each.
-/

namespace TableLisp

inductive Arithmetic where
  | add | sub | mul | div
  deriving DecidableEq, Repr

inductive OrderOp where
  | less | lessEqual | greater | greaterEqual
  deriving DecidableEq, Repr

inductive Predicate where
  | isNil | isTrue | isFalse | isSymbol | isKeyword | isString | isNumber | isList | isVector
  | isMap | isFunction | isMacro
  deriving DecidableEq, Repr

inductive SequenceOp where
  | list | vector | toVector | count | isEmpty | toSeq | first | rest | nth | last | cons | concat
  deriving DecidableEq, Repr

inductive NamingOp where
  | symbol | keyword
  deriving DecidableEq, Repr

inductive MapOp where
  | make | get | contains | keys | vals | assoc | dissoc | assocInPlace | dissocInPlace
  deriving DecidableEq, Repr

inductive TextOp where
  | join | joinReadable | printReadable | printPlain
  deriving DecidableEq, Repr

inductive Primitive where
  | arithmetic (op : Arithmetic)
  | equal
  | order (op : OrderOp)
  | sequence (op : SequenceOp)
  | predicate (op : Predicate)
  | naming (op : NamingOp)
  | map (op : MapOp)
  | text (op : TextOp)
  | throw
  | readString
  | slurp
  deriving DecidableEq, Repr

structure Profile where
  name : String
  description : String
  arity : Option Nat := none
  deriving DecidableEq, Repr

def Arithmetic.profile : Arithmetic → Profile
  | add => ⟨"+", "Sum of the arguments (0 with none)", none⟩
  | sub => ⟨"-", "Subtract the rest from the first argument, or negate a single argument", none⟩
  | mul => ⟨"*", "Product of the arguments (1 with none)", none⟩
  | div => ⟨"/", "Divide the first argument by the rest, or take the reciprocal of one", none⟩

def OrderOp.profile : OrderOp → Profile
  | less => ⟨"<", "True if arguments are strictly increasing", none⟩
  | lessEqual => ⟨"<=", "True if arguments are non-decreasing", none⟩
  | greater => ⟨">", "True if arguments are strictly decreasing", none⟩
  | greaterEqual => ⟨">=", "True if arguments are non-increasing", none⟩

def Predicate.profile : Predicate → Profile
  | isNil => ⟨"nil?", "True if the argument is nil", some 1⟩
  | isTrue => ⟨"true?", "True if the argument is true", some 1⟩
  | isFalse => ⟨"false?", "True if the argument is false", some 1⟩
  | isSymbol => ⟨"symbol?", "True for symbols", some 1⟩
  | isKeyword => ⟨"keyword?", "True for keywords", some 1⟩
  | isString => ⟨"string?", "True for strings", some 1⟩
  | isNumber => ⟨"number?", "True for integers, big integers and floats", some 1⟩
  | isList => ⟨"list?", "True if the argument is a list", some 1⟩
  | isVector => ⟨"vector?", "True for vectors", some 1⟩
  | isMap => ⟨"map?", "True for maps", some 1⟩
  | isFunction => ⟨"fn?", "True for functions that are not macros", some 1⟩
  | isMacro => ⟨"macro?", "True for functions flagged as macros", some 1⟩

def SequenceOp.profile : SequenceOp → Profile
  | list => ⟨"list", "Build a list from the arguments", none⟩
  | vector => ⟨"vector", "Build a vector from the arguments", none⟩
  | toVector => ⟨"vec", "Convert a list into a vector", some 1⟩
  | count => ⟨"count", "Number of elements in a collection", some 1⟩
  | isEmpty => ⟨"empty?", "True if the collection has no elements", some 1⟩
  | toSeq => ⟨"seq", "View a collection as a list, or nil when empty", some 1⟩
  | first => ⟨"first", "First element of a collection, or nil", some 1⟩
  | rest => ⟨"rest", "All but the first element, as a list", some 1⟩
  | nth => ⟨"nth", "Element at a zero-based index", some 2⟩
  | last => ⟨"last", "Last element of a collection, or nil", some 1⟩
  | cons => ⟨"cons", "Prepend an element, giving a list", some 2⟩
  | concat => ⟨"concat", "Join lists and vectors into one list", none⟩

def NamingOp.profile : NamingOp → Profile
  | symbol => ⟨"symbol", "Make a plain symbol from a string", some 1⟩
  | keyword => ⟨"keyword", "Make a keyword from a string or symbol", some 1⟩

def MapOp.profile : MapOp → Profile
  | make => ⟨"hash-map", "Build a mutable map from key/value arguments", none⟩
  | get => ⟨"get", "Value for a key, or nil / the default when absent", none⟩
  | contains => ⟨"contains?", "True if the map has the key", some 2⟩
  | keys => ⟨"keys", "Keys of a map, as a list", some 1⟩
  | vals => ⟨"vals", "Values of a map, as a list", some 1⟩
  | assoc => ⟨"assoc", "New map with the given key/value pairs added", none⟩
  | dissoc => ⟨"dissoc", "New map without the given keys", none⟩
  | assocInPlace => ⟨"assoc!", "Add key/value pairs to a mutable map in place", none⟩
  | dissocInPlace => ⟨"dissoc!", "Remove keys from a mutable map in place", none⟩

def TextOp.profile : TextOp → Profile
  | join =>
    ⟨"str", "Concatenate the display forms of the arguments (nil contributes nothing)", none⟩
  | joinReadable => ⟨"pr-str", "Readable forms of the arguments joined by spaces", none⟩
  | printReadable => ⟨"prn", "Print readable forms of the arguments, then a newline", none⟩
  | printPlain => ⟨"println", "Print display forms of the arguments, then a newline", none⟩

namespace Primitive

def profile : Primitive → Profile
  | arithmetic op => op.profile
  | equal => ⟨"=", "True if all arguments are structurally equal", none⟩
  | order op => op.profile
  | sequence op => op.profile
  | predicate op => op.profile
  | naming op => op.profile
  | map op => op.profile
  | text op => op.profile
  | throw => ⟨"throw", "Signal an error carrying the given value", some 1⟩
  | readString =>
    ⟨"read-string", "Read the first form of a string (nil when it holds none)", some 1⟩
  | slurp => ⟨"slurp", "Contents of a file as a string", some 1⟩

def name (p : Primitive) : String := p.profile.name

def all : List Primitive :=
  [.add, .sub, .mul, .div].map arithmetic ++ [equal] ++
    [.less, .lessEqual, .greater, .greaterEqual].map order ++
    [.list, .vector, .toVector, .count, .isEmpty, .toSeq, .first, .rest, .nth, .last, .cons,
      .concat].map sequence ++
    [.isNil, .isTrue, .isFalse, .isSymbol, .isKeyword, .isString, .isNumber, .isList, .isVector,
      .isMap, .isFunction, .isMacro].map predicate ++
    [.symbol, .keyword].map naming ++
    [.make, .get, .contains, .keys, .vals, .assoc, .dissoc, .assocInPlace,
      .dissocInPlace].map map ++
    [.join, .joinReadable, .printReadable, .printPlain].map text ++
    [throw, readString, slurp]

def ofName? (name : String) : Option Primitive := all.find? (·.name == name)

end Primitive

end TableLisp
