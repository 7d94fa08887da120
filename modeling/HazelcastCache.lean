import HazelcastCache.RangeRead
import HazelcastCache.KeyCollision
import HazelcastCache.LastInsert
import HazelcastCache.Publication
import HazelcastCache.Abandoned
import HazelcastCache.PartitionSizes
import HazelcastCache.RequestKeys
import HazelcastCache.Serialization
import HazelcastCache.StrictDecoding
import HazelcastCache.PartitionRoundTrip
import HazelcastCache.PartitionIndex
import HazelcastCache.BufferInvariant
import HazelcastCache.TailCopy
import HazelcastCache.Factory
import HazelcastCache.DataMaps
import HazelcastCache.Recovery
import HazelcastCache.Histories
import HazelcastCache.Traffic
import HazelcastCache.DataTraffic
import HazelcastCache.Isolation
import HazelcastCache.RangeLoop
import HazelcastCache.InsertCalls
import HazelcastCache.FactoryClients
