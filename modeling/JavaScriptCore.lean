import JavaScriptCore.Runtime.JSBigInt.ToStringSpec
import JavaScriptCore.Runtime.JSBigInt.Sequence
import JavaScriptCore.Wtf.LockAlgorithmSpec
import JavaScriptCore.Runtime.JSONObject.RoundTrip
import JavaScriptCore.Runtime.JSONObject.WalkerSpec
import JavaScriptCore.Builtins.ArrayPrototype.CompactSpec
import JavaScriptCore.Wtf.BitVectorSets
import JavaScriptCore.Wtf.IndexSparseSet
import JavaScriptCore.Wtf.ConcurrentPtrHashSet.Interleavings
import JavaScriptCore.Wtf.HashTable.EntrySet
import JavaScriptCore.Runtime.HashMapImpl.MapData
import JavaScriptCore.Runtime.HashMapImpl.AllocationFailure
import JavaScriptCore.Runtime.StringPrototype.ReplaceSpec
import JavaScriptCore.Runtime.Structure.Dictionary
import JavaScriptCore.Runtime.JSGenericTypedArrayView
import JavaScriptCore.Runtime.OrdinaryObject.DefineSpec
import JavaScriptCore.Runtime.GenericArgumentsSpec
import JavaScriptCore.Wtf.LEBDecoder
import JavaScriptCore.Wtf.DateMath
import JavaScriptCore.Wtf.MediaTime
import JavaScriptCore.Runtime.JSDateMath
import JavaScriptCore.Wtf.URLParser.IPv6Spec
import JavaScriptCore.Bytecode.UnlinkedCodeBlock
