import WukongSdk.Spelling
import WukongSdk.Verdict
import WukongSdk.Payload
import WukongSdk.SendCounter
import WukongSdk.FrameSize
import WukongSdk.Noise
import WukongSdk.Delays
import WukongSdk.Explained
import WukongSdk.Order
import WukongSdk.Requests
import WukongSdk.Recovery
