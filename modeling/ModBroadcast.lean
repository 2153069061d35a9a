import ModBroadcast.Automaton
import ModBroadcast.StampedRing
import ModBroadcast.Ring
import ModBroadcast.RingDelivery
import ModBroadcast.Counting
import ModBroadcast.Registry
import ModBroadcast.RegistryLife
import ModBroadcast.RegistryRefs
import ModBroadcast.RegistryPins
import ModBroadcast.RegistryTeardown
import ModBroadcast.Broadcast
import ModBroadcast.Members
import ModBroadcast.Recording
import ModBroadcast.Speaker
import ModBroadcast.Api
import ModBroadcast.App
import ModBroadcast.Room
import ModBroadcast.Frames
import ModBroadcast.Places
import ModBroadcast.RoomSlot
import ModBroadcast.SpeakerFloor
import ModBroadcast.ListenerList
import ModBroadcast.MemberIds
import ModBroadcast.ForeignAccess
import ModBroadcast.Inputs
import ModBroadcast.DoublyLinked
import ModBroadcast.ListenerHeap
import ModBroadcast.ListenerPointers
import ModBroadcast.Threads
import ModBroadcast.EventQueue
import ModBroadcast.Playback
import ModBroadcast.InputCustody
import ModBroadcast.Loops
import ModBroadcast.Promotion
import ModBroadcast.SelfLeave
import ModBroadcast.TornRead
import ModBroadcast.AudioPath
import ModBroadcast.Recordings
import ModBroadcast.RoomTeardown
import ModBroadcast.Channel
import ModBroadcast.Figures
import ModBroadcast.SpeakerCalls
import ModBroadcast.SpeakerTime
import ModBroadcast.LockedRoom
import ModBroadcast.Accounting
import ModBroadcast.Announcement
import ModBroadcast.ControlEvents
import ModBroadcast.Ledger
import ModBroadcast.Custody
import ModBroadcast.RecordingLife
import ModBroadcast.Config
import ModBroadcast.ConfigReload
import ModBroadcast.ExitVariables
import ModBroadcast.FirstJoins
import ModBroadcast.LockCode
import ModBroadcast.LockDiscipline
import ModBroadcast.ResyncCount
import ModBroadcast.CatchUp
import ModBroadcast.TalkDetection
import ModBroadcast.DtmfDecoding
import ModBroadcast.SelectiveStop
import ModBroadcast.RecordingFlag
import ModBroadcast.RecordingEvents
import ModBroadcast.RegistrySections
import ModBroadcast.ReadCodec
import ModBroadcast.JsonMode
import ModBroadcast.PreBuffer
import ModBroadcast.VolumeGain
import ModBroadcast.SilencePolicy
import ModBroadcast.FrameSizes
import ModBroadcast.GracePeriod
import ModBroadcast.EventPayload
import ModBroadcast.FailedInstall
import ModBroadcast.DialplanData
import ModBroadcast.JoinSettings
import ModBroadcast.ExitAttribution
import ModBroadcast.TransferArguments
import ModBroadcast.RecordingList
import ModBroadcast.PinnedMember
import ModBroadcast.WedgeDetector
import ModBroadcast.DeadlockFreedom
import ModBroadcast.SpeakerVoice
import ModBroadcast.Leaving
import ModBroadcast.Untrapped
import ModBroadcast.ModuleLife
import ModBroadcast.TickFigures
import ModBroadcast.DispatchableControls
import ModBroadcast.ResyncEvents
import ModBroadcast.Heartbeats
