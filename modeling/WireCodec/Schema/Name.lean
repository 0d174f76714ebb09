import WireCodec.Schema.Basic

/-!
# Type names

Every schema has a full type name, the one error messages report: the qualified path of
each type with its arguments in angle brackets, arrays as `[T; N]`, tuples in
parentheses (a one-item tuple with a trailing comma). Declared types are qualified by
the path their declaration carries.
-/

namespace WireCodec

namespace Schema

/-- The qualified name of the shared, growable, windowed and sequenced buffer types. -/
def bufferName : BufferKind → String
  | .shared => "bytes::bytes::Bytes"
  | .growable => "bytes::bytes_mut::BytesMut"
  | .segment => "lzpack::buffers::ArraySegment"
  | .sequence => "lzpack::buffers::ByteSequence"

/-- The qualified name of a sequence type applied to the name of its element. -/
def listName (k : ListKind) (elem : String) : String :=
  match k with
  | .vec => "alloc::vec::Vec<" ++ elem ++ ">"
  | .deque => "alloc::collections::vec_deque::VecDeque<" ++ elem ++ ">"
  | .boxedSlice => "alloc::boxed::Box<[" ++ elem ++ "]>"

/-- The items of a tuple, written between parentheses. -/
def tupleName (items : List String) : String :=
  match items with
  | [one] => "(" ++ one ++ ",)"
  | _ => "(" ++ ", ".intercalate items ++ ")"

/-- The full name of a schema's type. -/
def typeName (cat : Catalog) : Schema → String
  | int k => k.name
  | f32 => "f32"
  | f64 => "f64"
  | bool => "bool"
  | char => "char"
  | unit => "()"
  | string => "alloc::string::String"
  | timestamp => "lzpack::timestamp::Timestamp"
  | guid => "lzpack::guid::Guid"
  | duration => "core::time::Duration"
  | buffer k => bufferName k
  | list k e => listName k (typeName cat e)
  | array n e => "[" ++ typeName cat e ++ "; " ++ toString n ++ "]"
  | option e => "core::option::Option<" ++ typeName cat e ++ ">"
  | pointer .box e => "alloc::boxed::Box<" ++ typeName cat e ++ ">"
  | pointer .arc e => "alloc::sync::Arc<" ++ typeName cat e ++ ">"
  | map .sorted k v =>
    "alloc::collections::btree::map::BTreeMap<" ++ typeName cat k ++ ", " ++ typeName cat v ++ ">"
  | map .hashed k v =>
    "std::collections::hash::map::HashMap<" ++ typeName cat k ++ ", " ++ typeName cat v ++ ">"
  | set .sorted e => "alloc::collections::btree::set::BTreeSet<" ++ typeName cat e ++ ">"
  | set .hashed e => "std::collections::hash::set::HashSet<" ++ typeName cat e ++ ">"
  | tuple items => tupleName (items.attach.map fun ⟨s, _⟩ => typeName cat s)
  | named n args =>
    let path := match cat.find? n with
      | some d => d.path ++ "::"
      | Option.none => ""
    let args := args.attach.map fun ⟨s, _⟩ => typeName cat s
    path ++ n ++ (if args.isEmpty then "" else "<" ++ ", ".intercalate args ++ ">")
  | param i => "T" ++ toString i
termination_by s => sizeOf s
decreasing_by
  all_goals simp_wf
  all_goals first | omega | (have h := List.sizeOf_lt_of_mem ‹_›; omega)

end Schema

end WireCodec
