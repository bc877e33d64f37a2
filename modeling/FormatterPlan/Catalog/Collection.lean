import FormatterPlan.Name

/-! Collections: types that are written through an adapter which is composed of the formatters of
their arguments.  An interface carries no type of its own, so it names the concrete type that is
read in its place. -/

namespace FormatterPlan

/-- What kind of collection a shape is. -/
inductive CollectionCategory where
  /-- Sequences in an order: arrays, lists, queues, stacks, bags. -/
  | list
  | set
  | dictionary
  /-- Collections without type arguments. -/
  | nonGeneric
  | tuple
  /-- Types around a single value, pairs, and views of memory. -/
  | wrapper
  | grouping
deriving DecidableEq

/-- A collection and its adapter. -/
structure CollectionShape where
  name : String
  /-- The name under which the declaration is known. -/
  metadataName : String
  category : CollectionCategory
  arity : Nat
  adapter : String
  /-- The concrete type that an interface is read into. -/
  backing : Option String
  /-- The fixed formatter that replaces the adapter when the only argument is the type of bytes. -/
  byteFormatter : Option String
  isValueType : Bool
deriving DecidableEq

namespace CollectionShape

/-- A collection of reference type. -/
def shape (name : String) (category : CollectionCategory) (arity : Nat) (adapter : String)
    (backing : Option String) : CollectionShape :=
  ⟨name, FormatterPlan.metadataName name arity, category, arity, adapter, backing, none, false⟩

/-- A collection of value type. -/
def valueShape (name : String) (category : CollectionCategory) (arity : Nat) (adapter : String)
    (byteFormatter : Option String) : CollectionShape :=
  ⟨name, FormatterPlan.metadataName name arity, category, arity, adapter, none, byteFormatter, true⟩

def listName : String := FormatterPlan.metadataName "System.Collections.Generic.List" 1

def hashSetName : String := FormatterPlan.metadataName "System.Collections.Generic.HashSet" 1

def dictionaryName : String := FormatterPlan.metadataName "System.Collections.Generic.Dictionary" 2

def lookupName : String := FormatterPlan.metadataName "System.Linq.Lookup" 2

def groupingName : String := FormatterPlan.metadataName "System.Linq.Grouping" 2

def all : List CollectionShape := [
  shape "System.Collections.Generic.List" .list 1 "ListFormatter" none,
  shape "System.Collections.Generic.LinkedList" .list 1 "LinkedListFormatter" none,
  shape "System.Collections.Generic.Queue" .list 1 "QueueFormatter" none,
  shape "System.Collections.Generic.Stack" .list 1 "StackFormatter" none,
  shape "System.Collections.Generic.PriorityQueue" .list 2 "PriorityQueueFormatter" none,
  shape "System.Collections.Concurrent.ConcurrentQueue" .list 1 "ConcurrentQueueFormatter" none,
  shape "System.Collections.Concurrent.ConcurrentStack" .list 1 "ConcurrentStackFormatter" none,
  shape "System.Collections.Concurrent.ConcurrentBag" .list 1 "ConcurrentBagFormatter" none,
  shape "System.Collections.ObjectModel.ReadOnlyCollection" .list 1 "ReadOnlyCollectionFormatter"
    none,
  shape "System.Collections.ObjectModel.ObservableCollection" .list 1
    "ObservableCollectionFormatter" none,
  shape "System.Collections.ObjectModel.ReadOnlyObservableCollection" .list 1
    "ReadOnlyObservableCollectionFormatter" none,
  shape "System.Collections.Generic.HashSet" .set 1 "HashSetFormatter" none,
  shape "System.Collections.Generic.SortedSet" .set 1 "SortedSetFormatter" none,
  shape "System.Collections.Generic.Dictionary" .dictionary 2 "DictionaryFormatter" none,
  shape "System.Collections.Generic.SortedDictionary" .dictionary 2 "SortedDictionaryFormatter"
    none,
  shape "System.Collections.Generic.SortedList" .dictionary 2 "SortedListFormatter" none,
  shape "System.Collections.Concurrent.ConcurrentDictionary" .dictionary 2
    "ConcurrentDictionaryFormatter" none,
  shape "System.Collections.ObjectModel.ReadOnlyDictionary" .dictionary 2
    "ReadOnlyDictionaryFormatter" none,
  shape "System.Collections.Generic.IEnumerable" .list 1 "InterfaceEnumerableFormatter"
    (some listName),
  shape "System.Collections.Generic.ICollection" .list 1 "InterfaceCollectionFormatter2"
    (some listName),
  shape "System.Collections.Generic.IList" .list 1 "InterfaceListFormatter2" (some listName),
  shape "System.Collections.Generic.IReadOnlyCollection" .list 1
    "InterfaceReadOnlyCollectionFormatter" (some listName),
  shape "System.Collections.Generic.IReadOnlyList" .list 1 "InterfaceReadOnlyListFormatter"
    (some listName),
  shape "System.Collections.Generic.ISet" .set 1 "InterfaceSetFormatter" (some hashSetName),
  shape "System.Collections.Generic.IReadOnlySet" .set 1 "InterfaceReadOnlySetFormatter"
    (some hashSetName),
  shape "System.Collections.Generic.IDictionary" .dictionary 2 "InterfaceDictionaryFormatter"
    (some dictionaryName),
  shape "System.Collections.Generic.IReadOnlyDictionary" .dictionary 2
    "InterfaceReadOnlyDictionaryFormatter" (some dictionaryName),
  shape "System.Linq.ILookup" .grouping 2 "InterfaceLookupFormatter" (some lookupName),
  shape "System.Linq.IGrouping" .grouping 2 "InterfaceGroupingFormatter" (some groupingName),
  shape "System.Collections.ArrayList" .nonGeneric 0 "NonGenericListFormatter" none,
  shape "System.Collections.IEnumerable" .nonGeneric 0 "NonGenericInterfaceEnumerableFormatter"
    (some "System.Object[]"),
  shape "System.Collections.ICollection" .nonGeneric 0 "NonGenericInterfaceCollectionFormatter"
    (some "System.Collections.ArrayList"),
  shape "System.Collections.IList" .nonGeneric 0 "NonGenericInterfaceListFormatter" (some
    "System.Collections.ArrayList"),
  shape "System.Collections.IDictionary" .nonGeneric 0 "NonGenericInterfaceDictionaryFormatter"
    (some "System.Collections.Hashtable"),
  shape "System.Collections.Hashtable" .nonGeneric 0 "NonGenericDictionaryFormatter" none,
  valueShape "System.Nullable" .wrapper 1 "NullableFormatter" none,
  valueShape "System.Collections.Generic.KeyValuePair" .wrapper 2 "KeyValuePairFormatter" none,
  shape "System.Lazy" .wrapper 1 "LazyFormatter" none,
  valueShape "System.ArraySegment" .wrapper 1 "ArraySegmentFormatter" (some
    "ByteArraySegmentFormatter"),
  valueShape "System.Memory" .wrapper 1 "MemoryFormatter" (some "ByteMemoryFormatter"),
  valueShape "System.ReadOnlyMemory" .wrapper 1 "ReadOnlyMemoryFormatter" (some
    "ByteReadOnlyMemoryFormatter"),
  valueShape "System.Buffers.ReadOnlySequence" .wrapper 1 "ReadOnlySequenceFormatter" (some
    "ByteReadOnlySequenceFormatter"),
  valueShape "System.ValueTuple" .tuple 1 "ValueTupleFormatter" none,
  valueShape "System.ValueTuple" .tuple 2 "ValueTupleFormatter" none,
  valueShape "System.ValueTuple" .tuple 3 "ValueTupleFormatter" none,
  valueShape "System.ValueTuple" .tuple 4 "ValueTupleFormatter" none,
  valueShape "System.ValueTuple" .tuple 5 "ValueTupleFormatter" none,
  valueShape "System.ValueTuple" .tuple 6 "ValueTupleFormatter" none,
  valueShape "System.ValueTuple" .tuple 7 "ValueTupleFormatter" none,
  valueShape "System.ValueTuple" .tuple 8 "ValueTupleFormatter" none,
  shape "System.Tuple" .tuple 1 "TupleFormatter" none,
  shape "System.Tuple" .tuple 2 "TupleFormatter" none,
  shape "System.Tuple" .tuple 3 "TupleFormatter" none,
  shape "System.Tuple" .tuple 4 "TupleFormatter" none,
  shape "System.Tuple" .tuple 5 "TupleFormatter" none,
  shape "System.Tuple" .tuple 6 "TupleFormatter" none,
  shape "System.Tuple" .tuple 7 "TupleFormatter" none,
  shape "System.Tuple" .tuple 8 "TupleFormatter" none]

/-- An array, whose only argument is its element. -/
def arrayShape (brackets adapter : String) : CollectionShape :=
  ⟨brackets, brackets, .list, 1, adapter, none, none, false⟩

/-- The shapes of arrays with one to four dimensions, in this order. -/
def arrays : List CollectionShape := [
  arrayShape "[]" "ArrayFormatter",
  arrayShape "[,]" "TwoDimensionalArrayFormatter",
  arrayShape "[,,]" "ThreeDimensionalArrayFormatter",
  arrayShape "[,,,]" "FourDimensionalArrayFormatter"]

/-- The shape of an array.  Arrays of more than four dimensions have none. -/
def ofRank? : (rank : Nat) → Option CollectionShape
  | 0 => none
  | rank + 1 => arrays[rank]?

/-- Whether a metadata name is that of an interface: its last segment starts with an I and another
capital letter. -/
def isInterfaceName (metadataName : String) : Bool :=
  match (Text.lastSegment metadataName).toList with
  | 'I' :: second :: _ => second.isUpper
  | _ => false

end CollectionShape

end FormatterPlan
